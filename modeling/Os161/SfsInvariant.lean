import Mathlib.Data.Finset.Card
import Os161.Ownership
import Os161.SfsBlockIo

/-! What holds of a mounted file system between operations: who owns which block, what
the files are, and how memory and disk are related. `live` is the set of inodes in use;
it is fixed here and tied to the directory later. -/
namespace Os161

inductive Owner where
  | super
  | map (j : Nat)
  | inode (k : Nat)
  | direct (k i : Nat)
  | indirect (k : Nat)
  | slot (k j : Nat)
  deriving DecidableEq, Repr

def dataOwner (k n : Nat) : Owner := if n < 15 then .direct k n else .slot k (n - 15)

def Owner.IsData : Owner → Prop
  | .direct _ _ | .slot _ _ => True
  | _ => False

def Owner.OfFile : Owner → Prop
  | .indirect _ => True
  | o => o.IsData

@[ext] structure FileView where
  type : UInt16
  links : Nat
  size : Nat
  content : Nat → UInt8

namespace SfsFs

/-- The current contents of an inode: in memory if it is loaded, else on the disk. -/
def inode (s : SfsFs) (k : Nat) : SfsInode :=
  match s.vnode? k with
  | some v => v.svI
  | none => SfsInode.ofBlock (s.sectors k)

def indirect (s : SfsFs) (k : Nat) : Nat := (s.inode k).sfiIndirect.toNat

def slot (s : SfsFs) (k j : Nat) : Nat :=
  if s.indirect k = 0 then 0 else ((s.sectors (s.indirect k)).word j).toNat

def block (s : SfsFs) (k n : Nat) : Nat :=
  if n < 15 then (s.inode k).direct n else if n < 143 then s.slot k (n - 15) else 0

/-- File block `n` as data: a missing block is all zeros. -/
def data (s : SfsFs) (k n : Nat) : Block :=
  if s.block k n = 0 then Block.zero else s.sectors (s.block k n)

def view (s : SfsFs) (k : Nat) : FileView where
  type := (s.inode k).sfiType
  links := (s.inode k).sfiLinkcount.toNat
  size := (s.inode k).sfiSize.toNat
  content := fun o => (s.data k (o / 512)).bytes (o % 512)

def handle (s : SfsFs) (k : Nat) : Option (Nat × Nat) :=
  (s.vnode? k).map fun v => (v.vnRefcount,v.vnOpencount)

def Claims (s : SfsFs) (live : Nat → Prop) : Owner → Nat → Prop
  | .super, b => b = 0
  | .map j, b => j < sfsBitblocks s.nblocks ∧ b = 2 + j
  | .inode k, b => live k ∧ b = k
  | .direct k i, b => live k ∧ b = (s.inode k).direct i ∧ b ≠ 0
  | .indirect k, b => live k ∧ b = s.indirect k ∧ b ≠ 0
  | .slot k j, b => live k ∧ j < 128 ∧ b = s.slot k j ∧ b ≠ 0

def used (s : SfsFs) : Set Nat := {b | b < s.nblocks ∧ s.sfsFreemap.isset b = true}

def free (s : SfsFs) : Nat :=
  ((Finset.range s.nblocks).filter fun b => s.sfsFreemap.isset b = false).card

def mapBlock (f : Bitmap) (j : Nat) : Block := Block.ofBytes fun i => f.v (j * 512 + i)

def edit (s : SfsFs) (k : Nat) (f : SfsInode → SfsInode) : SfsFs :=
  s.update k fun v => { v with svI := f v.svI, svDirty := true }

/-- The device serves every block of the file system, and the freemap has a bit for each,
with those past the end marked. If `strict`, nothing fails from here on. -/
structure Geometry (strict : Prop) (s : SfsFs) : Prop where
  honest : s.sfsDevice.Honest
  reliable : strict → s.Reliable
  blocksize : s.sfsDevice.dBlocksize = 512
  inside : s.nblocks ≤ s.sfsDevice.dBlocks
  fits : s.sfsDevice.dBlocks * 512 < 2^31
  bits : s.sfsFreemap.nbits = sfsBitmapsize s.nblocks
  tail : ∀ i, s.nblocks ≤ i → i < s.sfsFreemap.nbits → s.sfsFreemap.isset i = true

structure Durable (s : SfsFs) : Prop where
  magic : s.sfsSuper.spMagic = sfsMagic
  named : s.sfsSuper.terminate = s.sfsSuper
  super : s.sfsSuperdirty = false → (SfsSuper.ofBlock (s.sectors 0)).terminate = s.sfsSuper
  map : s.sfsFreemapdirty = false →
    ∀ j < sfsBitblocks s.nblocks, s.sectors (2 + j) = mapBlock s.sfsFreemap j
  inode : ∀ k v, s.vnode? k = some v → v.svDirty = false → SfsInode.ofBlock (s.sectors k) = v.svI

structure Table (live : Nat → Prop) (s : SfsFs) : Prop where
  nodup : (s.sfsVnodes.map SfsVnode.svIno).Nodup
  live : ∀ k v, s.vnode? k = some v → live k
  referenced : ∀ k v, s.vnode? k = some v → 0 < v.vnRefcount
  ops : ∀ k v, s.vnode? k = some v → v.vnOps = if k = 1 then .dirops else .fileops

/-- The file system between two steps of an operation that holds the blocks `held`. -/
structure Consistent (strict : Prop) (live : Nat → Prop) (held : Set Nat) (s : SfsFs) : Prop where
  geometry : s.Geometry strict
  durable : s.Durable
  table : s.Table live
  owned : Owned strict (s.Claims live) held s.used
  root : live 1
  typed : ∀ k, live k → (s.inode k).sfiType = if k = 1 then sfsTypeDir else sfsTypeFile

structure Frame (live : Nat → Prop) (s t : SfsFs) : Prop where
  super : t.sfsSuper = s.sfsSuper
  views : ∀ j, live j → t.view j = s.view j
  handle : t.handle = s.handle

section Reading
variable {s t : SfsFs} {live : Nat → Prop} {k b n : Nat}

theorem dataOwner_isData (k n : Nat) : (dataOwner k n).IsData := by
  unfold dataOwner
  split <;> exact trivial

theorem dataOwner_inj {k n k' n' : Nat} (same : dataOwner k n = dataOwner k' n') :
    k = k' ∧ n = n' := by
  unfold dataOwner at same
  split at same <;> split at same
  · exact Owner.direct.inj same
  · exact nomatch same
  · exact nomatch same
  · exact ⟨(Owner.slot.inj same).1,by have := (Owner.slot.inj same).2; omega⟩

theorem block_lt (some_ : s.block k n ≠ 0) : n < 143 := by
  unfold block at some_
  split at some_
  · omega
  · split at some_
    · assumption
    · exact absurd rfl some_

theorem claims_data (small : n < 143) :
    s.Claims live (dataOwner k n) b ↔ live k ∧ b = s.block k n ∧ b ≠ 0 := by
  unfold dataOwner block
  split
  · exact Iff.rfl
  · have : n - 15 < 128 := by omega
    simp only [Claims,this,true_and]

theorem claims_congr (super : t.sfsSuper = s.sfsSuper)
    (direct : ∀ k, live k → (t.inode k).direct = (s.inode k).direct)
    (indirect : ∀ k, live k → t.indirect k = s.indirect k)
    (slot : ∀ k, live k → ∀ j < 128, t.slot k j = s.slot k j) (o : Owner) (b : Nat) :
    t.Claims live o b ↔ s.Claims live o b := by
  cases o with
  | super => exact Iff.rfl
  | map j => simp only [Claims,nblocks,super]
  | inode k => exact Iff.rfl
  | direct k i => exact and_congr_right fun h => by rw [direct k h]
  | indirect k => exact and_congr_right fun h => by rw [indirect k h]
  | slot k j =>
    exact and_congr_right fun h => and_congr_right fun small => by rw [slot k h j small]

theorem inode_of_loaded {v : SfsVnode} (found : s.vnode? k = some v) : s.inode k = v.svI := by
  simp only [inode,found]

section
variable (inode : t.inode k = s.inode k)
  (same : s.indirect k ≠ 0 → t.sectors (s.indirect k) = s.sectors (s.indirect k))
include inode same

theorem slot_congr (j : Nat) :
    t.slot k j = s.slot k j := by
  have indirect : t.indirect k = s.indirect k := by rw [SfsFs.indirect,SfsFs.indirect,inode]
  unfold slot
  rw [indirect]
  split
  · rfl
  · rw [same (by assumption)]

theorem block_congr (n : Nat) :
    t.block k n = s.block k n := by
  unfold block
  rw [inode,slot_congr inode same]

end

theorem view_congr (type : (t.inode k).sfiType = (s.inode k).sfiType)
    (links : (t.inode k).sfiLinkcount = (s.inode k).sfiLinkcount)
    (size : (t.inode k).sfiSize = (s.inode k).sfiSize) (data : ∀ n, t.data k n = s.data k n) :
    t.view k = s.view k := by
  simp only [view,type,links,size,data]

namespace Frame

theorem refl (live : Nat → Prop) (s : SfsFs) : Frame live s s := ⟨rfl,fun _ _ => rfl,rfl⟩

theorem trans {u : SfsFs} (first : Frame live s t) (second : Frame live t u) : Frame live s u :=
  ⟨second.super.trans first.super,fun j h => (second.views j h).trans (first.views j h),
    second.handle.trans first.handle⟩

end Frame

theorem loaded_iff_handle : s.loaded k ↔ ∃ h, s.handle k = some h := by
  rw [loaded_iff]
  unfold handle
  cases s.vnode? k <;> simp

theorem Frame.loaded (frame : Frame live s t) : t.loaded k ↔ s.loaded k := by
  rw [loaded_iff_handle,loaded_iff_handle,frame.handle]

end Reading

end SfsFs
end Os161
