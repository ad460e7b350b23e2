import Os161.Bitmap
import Os161.Lhd
import Os161.SfsFormat

/-! `sfs.h`: a mounted file system and its vnodes, with the small state updates the
functions of `sfs_vnode.c` are made of. A vnode is addressed by its inode number; the
vnode table never holds two vnodes for one inode. -/
namespace Os161

/-- The function table of a vnode: `sfs_fileops` or `sfs_dirops`. -/
inductive VnodeOps where
  | fileops | dirops
  deriving DecidableEq, Repr

/-- `struct sfs_vnode`, with the counts of its `struct vnode`. -/
structure SfsVnode where
  vnRefcount : Nat
  vnOpencount : Nat
  vnOps : VnodeOps
  svI : SfsInode
  svIno : Nat
  svDirty : Bool

/-- `struct sfs_fs`. `vnodesMax` is the capacity of the vnode array, and `kmalloc i` the
outcome of the `i`-th allocation to come. -/
structure SfsFs where
  sfsSuper : SfsSuper
  sfsSuperdirty : Bool
  sfsDevice : Device
  sfsVnodes : List SfsVnode
  vnodesMax : Nat
  sfsFreemap : Bitmap
  sfsFreemapdirty : Bool
  kmalloc : Nat → Bool

abbrev Sfs (α : Type) := Call SfsFs α

/-- The state of a call that was handed a uio. -/
structure SfsIo where
  fs : SfsFs
  uio : Uio

namespace SfsFs

def disk (s : SfsFs) : Disk := s.sfsDevice.dData
def sectors (s : SfsFs) : Nat → Block := s.sfsDevice.dData.sectors
def nblocks (s : SfsFs) : Nat := s.sfsSuper.spNblocks.toNat

def setDisk (s : SfsFs) (d : Disk) : SfsFs := { s with sfsDevice := { s.sfsDevice with dData := d } }

def tick (s : SfsFs) (n : Nat) : SfsFs := s.setDisk (s.disk.tick n)

def store (s : SfsFs) (b : Nat) (data : Block) : SfsFs := s.setDisk (s.disk.store b data)

/-- The freemap with bit `b` set or cleared, and its dirty flag set. -/
def mark (s : SfsFs) (b : Nat) : SfsFs :=
  { s with sfsFreemap := s.sfsFreemap.set b, sfsFreemapdirty := true }
def unmark (s : SfsFs) (b : Nat) : SfsFs :=
  { s with sfsFreemap := s.sfsFreemap.clear b, sfsFreemapdirty := true }

def vnode? (s : SfsFs) (k : Nat) : Option SfsVnode := s.sfsVnodes.find? fun v => v.svIno = k

def loaded (s : SfsFs) (k : Nat) : Prop := ∃ v ∈ s.sfsVnodes, v.svIno = k

def update (s : SfsFs) (k : Nat) (f : SfsVnode → SfsVnode) : SfsFs :=
  { s with sfsVnodes := s.sfsVnodes.map fun v => if v.svIno = k then f v else v }

def Reliable (s : SfsFs) : Prop := s.disk.Reliable ∧ ∀ i, s.kmalloc i = true

end SfsFs

namespace Sfs

def vnode (k : Nat) : Sfs SfsVnode := do
  match (← read).vnode? k with
  | some v => pure v
  | none => panic (.freedVnode k)

def update (k : Nat) (f : SfsVnode → SfsVnode) : Sfs Unit := modify fun s => s.update k f

def updateInode (k : Nat) (f : SfsInode → SfsInode) : Sfs Unit :=
  update k fun v => { v with svI := f v.svI, svDirty := true }

/-- `kmalloc`, as far as its result goes. -/
def kmalloc : Sfs Unit := do
  let s ← read
  put { s with kmalloc := fun i => s.kmalloc (i + 1) }
  if s.kmalloc 0 then pure () else fail .enomem

def withUio (u : Uio) (call : Call SfsIo α) : Sfs (α × Uio) := fun s =>
  match call ⟨s,u⟩ with
  | (.ok value, t) => (.ok (value,t.uio), t.fs)
  | (.err code, t) => (.err code, t.fs)
  | (.panic site, t) => (.panic site, t.fs)

theorem wp_withUio {u : Uio} {call : Call SfsIo α} {s : SfsFs} {ok : α × Uio → SfsFs → Prop}
    {err : Errno → SfsFs → Prop} {halt : Panic → SfsFs → Prop} :
    (withUio u call).wp s ok err halt ↔
      call.wp ⟨s,u⟩ (fun a t => ok (a,t.uio) t.fs) (fun e t => err e t.fs)
        (fun p t => halt p t.fs) := by
  simp only [Exec.wp,withUio]
  rcases call ⟨s,u⟩ with ⟨_ | _ | _, t⟩ <;> rfl

end Sfs

namespace SfsIo

def onFs (call : Sfs α) : Call SfsIo α := zoom SfsIo.fs (fun io s => { io with fs := s }) call
def onUio (call : Call Uio α) : Call SfsIo α :=
  zoom SfsIo.uio (fun io u => { io with uio := u }) call

section Rules
variable {io : SfsIo} {ok : α → SfsIo → Prop} {err : Errno → SfsIo → Prop}
  {halt : Panic → SfsIo → Prop}

theorem wp_onFs {call : Sfs α} : (onFs call).wp io ok err halt ↔
    call.wp io.fs (fun a s => ok a ⟨s,io.uio⟩) (fun e s => err e ⟨s,io.uio⟩)
      (fun p s => halt p ⟨s,io.uio⟩) := wp_zoom _ _ _

theorem wp_onUio {call : Call Uio α} : (onUio call).wp io ok err halt ↔
    call.wp io.uio (fun a u => ok a ⟨io.fs,u⟩) (fun e u => err e ⟨io.fs,u⟩)
      (fun p u => halt p ⟨io.fs,u⟩) := wp_zoom _ _ _
end Rules

end SfsIo

namespace SfsFs

section Projections
variable (s : SfsFs) (b k n : Nat) (data : Block) (f : SfsVnode → SfsVnode)

@[simp] theorem tick_super : (s.tick n).sfsSuper = s.sfsSuper := rfl
@[simp] theorem tick_vnodes : (s.tick n).sfsVnodes = s.sfsVnodes := rfl
@[simp] theorem tick_freemap : (s.tick n).sfsFreemap = s.sfsFreemap := rfl

theorem store_sectors (i : Nat) :
    (s.store b data).sectors i = if i = b then data else s.sectors i := rfl

@[simp] theorem mark_freemap : (s.mark b).sfsFreemap = s.sfsFreemap.set b := rfl

@[simp] theorem unmark_freemap : (s.unmark b).sfsFreemap = s.sfsFreemap.clear b := rfl

end Projections

theorem vnode?_mem {s : SfsFs} {k : Nat} {v : SfsVnode} (found : s.vnode? k = some v) :
    v ∈ s.sfsVnodes ∧ v.svIno = k :=
  ⟨List.mem_of_find?_eq_some found,by simpa using List.find?_some found⟩

theorem loaded_iff {s : SfsFs} {k : Nat} : s.loaded k ↔ ∃ v, s.vnode? k = some v := by
  constructor
  · rintro ⟨v,mem,ino⟩
    cases found : s.vnode? k with
    | some w => exact ⟨w,rfl⟩
    | none => exact absurd ino (by simpa using List.find?_eq_none.mp found v mem)
  · rintro ⟨v,found⟩
    exact ⟨v,vnode?_mem found⟩

theorem vnode?_update (s : SfsFs) (k : Nat) {f : SfsVnode → SfsVnode}
    (keeps : ∀ v, (f v).svIno = v.svIno) (j : Nat) :
    (s.update k f).vnode? j = if j = k then (s.vnode? j).map f else s.vnode? j := by
  simp only [vnode?,update]
  induction s.sfsVnodes with
  | nil => simp
  | cons v vs ih =>
    simp only [List.map_cons,List.find?_cons]
    by_cases atK : v.svIno = k
    · by_cases atJ : v.svIno = j
      · have : j = k := atJ.symm.trans atK
        simp [atK,keeps,this]
      · have ne : k ≠ j := fun eq => atJ (atK.trans eq)
        simpa [atK,keeps,ne] using ih
    · by_cases atJ : v.svIno = j
      · have : j ≠ k := fun eq => atK (atJ.trans eq)
        simp [atJ,this]
      · simpa [atK,atJ] using ih

end SfsFs
end Os161
