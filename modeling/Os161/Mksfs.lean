import Os161.SfsLinks
import Os161.SfsRemount

/-! `sbin/mksfs`: making a file system, and that what it writes is what the kernel mounts.
The program is built for the target, which is big-endian, or for a host of either byte
order, where it swaps what it writes. -/
namespace Os161

open SfsFs

/-! Byte orders -/

inductive Endian where
  | big | little
  deriving DecidableEq, Repr

def be16Byte (w : UInt16) (i : Nat) : UInt8 := UInt8.ofNat (w.toNat / 2^(8 * (1 - i)))

def be16 (a b : UInt8) : UInt16 := UInt16.ofNat (a.toNat * 2^8 + b.toNat)

namespace Endian

def byte32 : Endian → UInt32 → Nat → UInt8
  | .big, w, i => be32Byte w i
  | .little, w, i => be32Byte w (3 - i)

def byte16 : Endian → UInt16 → Nat → UInt8
  | .big, w, i => be16Byte w i
  | .little, w, i => be16Byte w (1 - i)

def ntohl : Endian → UInt32 → UInt32
  | .big, w => w
  | .little, w => be32 (be32Byte w 3) (be32Byte w 2) (be32Byte w 1) (be32Byte w 0)

def ntohs : Endian → UInt16 → UInt16
  | .big, w => w
  | .little, w => be16 (be16Byte w 1) (be16Byte w 0)

def superBytes (e : Endian) (sp : SfsSuper) : Block := fun i =>
  if i.val < 4 then e.byte32 sp.spMagic i.val
  else if i.val < 8 then e.byte32 sp.spNblocks (i.val - 4)
  else if h : i.val - 8 < 32 then sp.spVolname ⟨i.val - 8,h⟩
  else e.byte32 (sp.reserved ⟨(i.val - 40) / 4,reserved_lt i⟩) (i.val % 4)

def inodeBytes (e : Endian) (sfi : SfsInode) : Block := fun i =>
  if i.val < 4 then e.byte32 sfi.sfiSize i.val
  else if i.val < 6 then e.byte16 sfi.sfiType (i.val - 4)
  else if i.val < 8 then e.byte16 sfi.sfiLinkcount (i.val - 6)
  else if h : i.val / 4 - 2 < 15 then e.byte32 (sfi.sfiDirect ⟨i.val / 4 - 2,h⟩) (i.val % 4)
  else if i.val / 4 = 17 then e.byte32 sfi.sfiIndirect (i.val % 4)
  else e.byte32 (sfi.sfiWaste ⟨i.val / 4 - 18,by omega⟩) (i.val % 4)

end Endian

/-- What the program was compiled for. -/
inductive Build where
  | target
  | host (order : Endian)
  deriving DecidableEq, Repr

namespace Build

def order : Build → Endian
  | .target => .big
  | .host e => e

def swapl : Build → UInt32 → UInt32
  | .target, w => w
  | .host e, w => e.ntohl w

def swaps : Build → UInt16 → UInt16
  | .target, w => w
  | .host e, w => e.ntohs w

end Build

/-! The program -/

inductive MksfsError where
  | volnameTooLong | fsTooLarge | illegalVolname | wrongBlocksize
  deriving DecidableEq, Repr

inductive MksfsPanic where
  | bitAllocated (bit : Nat) | bufferOverrun
  deriving DecidableEq, Repr

/-- The static buffer, and the disk as the target will number its sectors. -/
structure MksfsState where
  bitbuf : Nat → UInt8
  disk : Nat → Block

abbrev Mksfs (α : Type) := Exec MksfsState MksfsError MksfsPanic α

def diskwrite (data : Block) (block : Nat) : Mksfs Unit :=
  modify fun st => { st with disk := fun i => if i = block then data else st.disk i }

def writesuper (build : Build) (volname : List UInt8) (nblocks : UInt32) : Mksfs Unit :=
  if volname.length ≥ 32 then fail .volnameTooLong
  else diskwrite (build.order.superBytes
    { spMagic := build.swapl sfsMagic
      spNblocks := build.swapl nblocks
      spVolname := fun i => volname.getD i.val 0
      reserved := fun _ => 0 }) 0

def writerootdir (build : Build) : Mksfs Unit :=
  diskwrite (build.order.inodeBytes
    { sfiSize := build.swapl 0
      sfiType := build.swaps sfsTypeDir
      sfiLinkcount := build.swaps 1
      sfiDirect := fun _ => 0
      sfiIndirect := 0
      sfiWaste := fun _ => 0 }) 1

def doallocbit (bit : Nat) : Mksfs Unit := do
  let byte := bit / 8
  let mask : UInt8 := (1 : UInt8) <<< UInt8.ofNat (bit % 8)
  let st ← read
  assert (byte < 32 * 512) .bufferOverrun
  assert (st.bitbuf byte &&& mask = 0) (.bitAllocated bit)
  put { st with bitbuf := fun i => if i = byte then st.bitbuf byte ||| mask else st.bitbuf i }

/-- The marks of `writebitmap`: superblock, root directory, the map itself, and the bits
past the end of the disk. -/
def markbitmap (fsblocks : Nat) : Mksfs Unit := do
  doallocbit 0
  doallocbit 1
  loop (fun i _ => doallocbit (2 + i)) (sfsBitblocks fsblocks) 0 ()
  loop (fun i _ => doallocbit i) (sfsBitmapsize fsblocks - fsblocks) fsblocks ()

def writebitblock (i : Nat) : Mksfs Unit := do
  let st ← read
  diskwrite (Block.ofBytes fun o => st.bitbuf (i * 512 + o)) (2 + i)

def writebitmap (fsblocks : Nat) : Mksfs Unit :=
  if sfsBitblocks fsblocks > 32 then fail .fsTooLarge
  else do
    markbitmap fsblocks
    loop (fun i _ => writebitblock i) (sfsBitblocks fsblocks) 0 ()

def stripColon (volname : List UInt8) : Option (List UInt8) :=
  match volname.dropWhile (· ≠ 58) with
  | [] => some volname
  | [_] => some (volname.takeWhile (· ≠ 58))
  | _ => none

/-- `main`, from the volume name on, for a disk of the given geometry. -/
def mksfs (build : Build) (volname : CString) (blocksize size : Nat) : Mksfs Unit :=
  match stripColon volname.chars with
  | none => fail .illegalVolname
  | some name =>
    if 47 ∈ name then fail .illegalVolname
    else if blocksize ≠ 512 then fail .wrongBlocksize
    else do
      writesuper build name (UInt32.ofNat size)
      writerootdir build
      writebitmap size

/-! What it writes, in target byte order -/

section Bytes
variable (b : Build) (e : Endian) {i : Nat}

theorem be16Byte_be16 (x y : UInt8) : be16Byte (be16 x y) 0 = x ∧ be16Byte (be16 x y) 1 = y := by
  have := x.toNat_lt
  have := y.toNat_lt
  refine ⟨?_,?_⟩ <;> apply UInt8.toNat_inj.mp <;>
    simp only [be16Byte,be16,UInt8.toNat_ofNat',UInt16.toNat_ofNat'] <;> omega

theorem be32Byte_pack16 (high low : UInt16) (lt : i < 4) :
    be32Byte (pack16 high low) i = if i < 2 then be16Byte high i else be16Byte low (i - 2) := by
  have := high.toNat_lt
  have := low.toNat_lt
  have split : i = 0 ∨ i = 1 ∨ i = 2 ∨ i = 3 := by omega
  rcases split with rfl | rfl | rfl | rfl <;> apply UInt8.toNat_inj.mp <;>
    simp [be32Byte,be16Byte,pack16_toNat] <;> omega

theorem Endian.byte32_zero (i : Nat) : e.byte32 0 i = 0 := by
  cases e <;> simp [byte32,be32Byte]

theorem Build.byte32_swapl (w : UInt32) (lt : i < 4) :
    b.order.byte32 (b.swapl w) i = be32Byte w i := by
  match b with
  | .target => rfl
  | .host .big => rfl
  | .host .little =>
    obtain ⟨b0,b1,b2,b3⟩ :=
      be32Byte_be32 (be32Byte w 3) (be32Byte w 2) (be32Byte w 1) (be32Byte w 0)
    have split : i = 0 ∨ i = 1 ∨ i = 2 ∨ i = 3 := by omega
    rcases split with rfl | rfl | rfl | rfl
    · exact b3
    · exact b2
    · exact b1
    · exact b0

theorem Build.byte16_swaps (w : UInt16) (lt : i < 2) :
    b.order.byte16 (b.swaps w) i = be16Byte w i := by
  match b with
  | .target => rfl
  | .host .big => rfl
  | .host .little =>
    obtain ⟨b0,b1⟩ := be16Byte_be16 (be16Byte w 1) (be16Byte w 0)
    have split : i = 0 ∨ i = 1 := by omega
    rcases split with rfl | rfl
    · exact b1
    · exact b0

theorem be32Byte_zero (i : Nat) : be32Byte 0 i = 0 := Endian.byte32_zero .big i

theorem superBytes_swapped (magic nblocks : UInt32) (volname : Fin 32 → UInt8) :
    b.order.superBytes ⟨b.swapl magic,b.swapl nblocks,volname,fun _ => 0⟩ =
      SfsSuper.toBlock ⟨magic,nblocks,volname,fun _ => 0⟩ := by
  funext i
  simp only [Endian.superBytes,SfsSuper.toBlock,Endian.byte32_zero,be32Byte_zero]
  split
  · exact b.byte32_swapl magic (by assumption)
  split
  · exact b.byte32_swapl nblocks (by omega)
  · rfl

theorem inodeBytes_swapped (size : UInt32) (type links : UInt16) :
    b.order.inodeBytes ⟨b.swapl size,b.swaps type,b.swaps links,fun _ => 0,0,fun _ => 0⟩ =
      SfsInode.toBlock ⟨size,type,links,fun _ => 0,0,fun _ => 0⟩ := by
  funext i
  simp only [Endian.inodeBytes,SfsInode.toBlock,Block.ofWords,SfsInode.wordAt,
    Endian.byte32_zero,dite_eq_ite,ite_self]
  have := i.isLt
  by_cases first : i.val < 4
  · rw [if_pos first,if_pos (by omega),b.byte32_swapl size first,Nat.mod_eq_of_lt first]
  rw [if_neg first,if_neg (show ¬i.val / 4 = 0 by omega)]
  by_cases second : i.val < 8
  · rw [if_pos (show i.val / 4 = 1 by omega),be32Byte_pack16 _ _ (by omega)]
    by_cases high : i.val < 6
    · rw [if_pos high,if_pos (by omega),b.byte16_swaps type (by omega)]
      congr 1
      omega
    · rw [if_neg high,if_pos second,if_neg (by omega),b.byte16_swaps links (by omega)]
      congr 1
      omega
  · rw [if_neg (by omega),if_neg second,if_neg (by omega),be32Byte_zero]

end Bytes

/-! The bit buffer -/

def MksfsState.map (st : MksfsState) : Bitmap := ⟨0,st.bitbuf⟩

section Bits
variable {st : MksfsState} {n : Nat}

theorem doallocbit_spec {bit : Nat} (small : bit < 131072) (clear : st.map.isset bit = false) :
    (doallocbit bit).wp st
      (fun _ t => t.disk = st.disk ∧ ∀ i, t.map.isset i = (decide (i = bit) || st.map.isset i))
      never never := by
  have low : bit % 8 < 8 := Nat.mod_lt _ (by decide)
  have zero : st.bitbuf (bit / 8) &&& (1 : UInt8) <<< UInt8.ofNat (bit % 8) = 0 := by
    rw [Bitmap.isset_eq] at clear
    exact (Bitmap.and_mask_eq_zero _ low).mpr clear
  simp only [doallocbit,wp_bind,wp_read,wp_assert,wp_put]
  rw [if_pos (by simp only [decide_eq_true_eq]; omega),if_pos (by rw [zero]; rfl)]
  exact ⟨trivial,fun i => Bitmap.isset_set st.map bit i⟩

theorem doallocbit_loop {f : Nat → Nat} {low : Nat} (shift : ∀ i, f i = low + i)
    (count start : Nat) (small : low + (start + count) ≤ 131072)
    (clear : ∀ i, low + start ≤ i → i < low + (start + count) → st.map.isset i = false) :
    (loop (fun i _ => doallocbit (f i)) count start ()).wp st
      (fun _ t => t.disk = st.disk ∧ ∀ i, t.map.isset i =
        (decide (low + start ≤ i ∧ i < low + (start + count)) || st.map.isset i)) never never := by
  refine wp_loop (fun j _ (t : MksfsState) => t.disk = st.disk ∧ ∀ i, t.map.isset i =
      (decide (low + start ≤ i ∧ i < low + j) || st.map.isset i)) count start () ⟨rfl,?_⟩ ?_
  · intro i
    rw [decide_eq_false (by omega),Bool.false_or]
  · rintro j _ t first last ⟨disk,marked⟩
    rw [shift]
    have free : t.map.isset (low + j) = false := by
      rw [marked,decide_eq_false (by omega),Bool.false_or]
      exact clear _ (by omega) (by omega)
    apply wp_imp (doallocbit_spec (by omega) free)
    rintro _ u ⟨diskU,markedU⟩
    refine ⟨diskU.trans disk,fun i => ?_⟩
    rw [markedU,marked,← Bool.or_assoc,← Bool.decide_or]
    congr 1
    simp only [decide_eq_decide]
    omega

/-- The sizes that `mksfs` accepts and that leave room for the metadata. -/
structure FsSize (n : Nat) : Prop where
  room : 2 + (n + 4095) / 4096 ≤ n
  limit : n ≤ 131072

theorem FsSize.bitblocks (size : FsSize n) : sfsBitblocks n = (n + 4095) / 4096 := by
  have := size.limit
  rw [sfsBitblocks_eq,divRoundUp]
  omega

def newBit (n i : Nat) : Bool :=
  decide (i < 2 + sfsBitblocks n ∨ n ≤ i ∧ i < sfsBitmapsize n)

theorem markbitmap_spec (size : FsSize n) (empty : ∀ i, st.map.isset i = false) :
    (markbitmap n).wp st (fun _ t => t.disk = st.disk ∧ ∀ i, t.map.isset i = newBit n i)
      never never := by
  have room := size.room
  have limit := size.limit
  have blocks := size.bitblocks
  have bits := sfsBitmapsize_eq n
  simp only [markbitmap,wp_bind]
  apply wp_imp (doallocbit_spec (by decide) (empty 0))
  rintro _ s1 ⟨disk1,marked1⟩
  have free1 : s1.map.isset 1 = false := by rw [marked1,empty]; rfl
  apply wp_imp (doallocbit_spec (by decide) free1)
  rintro _ s2 ⟨disk2,marked2⟩
  have at2 : ∀ i, s2.map.isset i = decide (i < 2) := by
    intro i
    rw [marked2,marked1,empty,Bool.or_false,← Bool.decide_or,decide_eq_decide]
    omega
  refine wp_mono (doallocbit_loop (fun _ => rfl) _ 0 (by omega) ?_) ?_ ?_ ?_
  · intro i low _
    rw [at2,decide_eq_false (by omega)]
  · rintro _ s3 ⟨disk3,marked3⟩
    have at3 : ∀ i, s3.map.isset i = decide (i < 2 + sfsBitblocks n) := by
      intro i
      rw [marked3,at2,← Bool.decide_or,decide_eq_decide]
      omega
    have unshifted : ∀ i, i = 0 + i := fun i => (Nat.zero_add i).symm
    refine wp_mono (doallocbit_loop unshifted _ n (by omega) ?_) ?_ ?_ ?_
    · intro i low _
      rw [at3,decide_eq_false (by omega)]
    · rintro _ s4 ⟨disk4,marked4⟩
      refine ⟨disk4.trans (disk3.trans (disk2.trans disk1)),fun i => ?_⟩
      rw [marked4,at3,← Bool.decide_or,newBit,decide_eq_decide]
      omega
    · exact fun _ _ h => h
    · exact fun _ _ h => h
  · exact fun _ _ h => h
  · exact fun _ _ h => h

end Bits

/-! The whole image -/

def newSuper (n : Nat) (volname : List UInt8) : SfsSuper where
  spMagic := sfsMagic
  spNblocks := UInt32.ofNat n
  spVolname := fun i => volname.getD i.val 0
  reserved := fun _ => 0

def newRoot : SfsInode where
  sfiSize := 0
  sfiType := sfsTypeDir
  sfiLinkcount := 1
  sfiDirect := fun _ => 0
  sfiIndirect := 0
  sfiWaste := fun _ => 0

structure Formatted (n : Nat) (volname : List UInt8) (image : Nat → Block) : Prop where
  super : SfsSuper.ofBlock (image 0) = newSuper n volname
  root : SfsInode.ofBlock (image 1) = newRoot
  map : ∃ f : Bitmap, (∀ j < sfsBitblocks n, image (2 + j) = mapBlock f j) ∧
    ∀ i, f.isset i = newBit n i

section Image
variable {st : MksfsState} {n : Nat} {volname : List UInt8} {image : Nat → Block}

theorem writebitblock_loop (count : Nat) :
    (loop (fun i _ => writebitblock i) count 0 ()).wp st
      (fun _ t => t.bitbuf = st.bitbuf ∧ t.disk 0 = st.disk 0 ∧ t.disk 1 = st.disk 1 ∧
        ∀ j < count, t.disk (2 + j) = mapBlock st.map j) never never := by
  refine wp_loop_zero (fun i _ (t : MksfsState) => t.bitbuf = st.bitbuf ∧
      t.disk 0 = st.disk 0 ∧ t.disk 1 = st.disk 1 ∧ ∀ j < i, t.disk (2 + j) = mapBlock st.map j)
    count () ⟨rfl,rfl,rfl,fun j lt => absurd lt (Nat.not_lt_zero j)⟩ ?_
  rintro i _ t lt ⟨bitbuf,super,root,before⟩
  simp only [writebitblock,diskwrite,wp_bind,wp_read,wp_modify]
  refine ⟨bitbuf,?_,?_,fun j ltJ => ?_⟩
  · rw [if_neg (by omega),super]
  · rw [if_neg (by omega),root]
  · split
    · rw [show j = i by omega,bitbuf]
      rfl
    · exact before j (by omega)

theorem writebitmap_spec (size : FsSize n) (empty : ∀ i, st.map.isset i = false) :
    (writebitmap n).wp st
      (fun _ t => t.disk 0 = st.disk 0 ∧ t.disk 1 = st.disk 1 ∧ ∃ f : Bitmap,
        (∀ j < sfsBitblocks n, t.disk (2 + j) = mapBlock f j) ∧ ∀ i, f.isset i = newBit n i)
      never never := by
  have blocks := size.bitblocks
  have limit := size.limit
  rw [writebitmap,if_neg (by omega),wp_bind]
  apply wp_imp (markbitmap_spec size empty)
  rintro _ s1 ⟨disk1,marked⟩
  apply wp_imp (writebitblock_loop (sfsBitblocks n))
  rintro _ t ⟨-,super,root,map⟩
  rw [disk1] at super root
  exact ⟨super,root,s1.map,map,marked⟩

theorem stripColon_plain (plain : 58 ∉ volname) : stripColon volname = some volname := by
  have none_ : volname.dropWhile (· ≠ 58) = [] := by
    rw [List.dropWhile_eq_nil_iff]
    intro c mem
    simp only [decide_eq_true_eq]
    rintro rfl
    exact plain mem
  rw [stripColon,none_]

theorem mksfs_spec (build : Build) (name : CString) (short : name.chars.length < 32)
    (noColon : 58 ∉ name.chars) (noSlash : 47 ∉ name.chars) (size : FsSize n)
    (old : Nat → Block) :
    (mksfs build name 512 n).wp ⟨fun _ => 0,old⟩
      (fun _ t => Formatted n name.chars t.disk) never never := by
  rw [mksfs,stripColon_plain noColon]
  simp only
  rw [if_neg noSlash,if_neg (by decide),wp_bind,writesuper,if_neg (by omega),diskwrite,
    wp_modify,wp_bind,writerootdir,diskwrite,wp_modify]
  refine wp_mono (writebitmap_spec size fun i => ?_) ?_ ?_ ?_
  · simp [MksfsState.map,Bitmap.isset_eq]
  · rintro _ t ⟨super,root,map⟩
    refine ⟨?_,?_,map⟩
    · rw [super]
      simp only [Nat.zero_ne_one,if_false,if_true]
      rw [superBytes_swapped,SfsSuper.ofBlock_toBlock]
      rfl
    · rw [root]
      simp only [if_true]
      rw [inodeBytes_swapped,SfsInode.ofBlock_toBlock]
      rfl
  · exact fun _ _ h => h
  · exact fun _ _ h => h

end Image

/-! Mounting it -/

section Mounting
variable {n : Nat} {volname : List UInt8} {image : Nat → Block} {g t : SfsFs}

theorem newSuper_named (n : Nat) (short : volname.length < 32) :
    (newSuper n volname).terminate = newSuper n volname := by
  ext i
  · rfl
  · rfl
  · simp only [SfsSuper.terminate,newSuper]
    split
    · rw [List.getD_eq_default _ _ (by omega)]
    · rfl
  · rfl

theorem Formatted.superOf_eq (formatted : Formatted n volname image) (short : volname.length < 32) :
    superOf image = newSuper n volname := by
  rw [superOf,formatted.super]
  exact newSuper_named n short

theorem FsSize.nblocks (size : FsSize n) : (newSuper n volname).spNblocks.toNat = n := by
  have := size.limit
  rw [newSuper,UInt32.toNat_ofNat',Nat.mod_eq_of_lt (by omega)]

theorem Formatted.mountable (formatted : Formatted n volname image) (size : FsSize n)
    (short : volname.length < 32) (holds : g.Holds image) : g.Mountable where
  honest := holds.honest
  reliable := holds.reliable
  blocksize := holds.blocksize
  fits := holds.fits
  magic := by
    rw [holds.sectors,formatted.superOf_eq short]
    rfl
  map := by
    have inside := holds.inside
    rw [formatted.superOf_eq short,size.nblocks] at inside
    rw [holds.sectors,formatted.superOf_eq short,size.nblocks,size.bitblocks]
    exact Nat.le_trans size.room inside

/-- A file system with nothing in it: only the metadata is marked. -/
structure Empty (strict : Prop) (n : Nat) (t : SfsFs) : Prop where
  geometry : t.Geometry strict
  durable : t.Durable
  vnodes : t.sfsVnodes = []
  nblocks : t.nblocks = n
  bits : ∀ i < t.sfsFreemap.nbits, t.sfsFreemap.isset i = newBit n i
  root : t.inode 1 = newRoot

theorem Formatted.empty (formatted : Formatted n volname image) (size : FsSize n)
    (short : volname.length < 32) (holds : g.Holds image) (mount : Mount g t) : Empty True n t := by
  have super : t.sfsSuper = newSuper n volname := by
    rw [mount.super,holds.sectors,formatted.superOf_eq short]
  have nblocks : t.nblocks = n := by rw [SfsFs.nblocks,super,size.nblocks]
  have bits : ∀ i < t.sfsFreemap.nbits, t.sfsFreemap.isset i = newBit n i := by
    intro i lt
    obtain ⟨f,map,marked⟩ := formatted.map
    rw [mount.bits,nblocks,sfsBitmapsize_eq] at lt
    rw [← marked]
    apply isset_of_mapBlock
    rw [mount.map _ (by rw [nblocks]; omega),holds.sectors,map _ (by omega)]
  have m := formatted.mountable size short holds
  have inside : t.nblocks ≤ g.sfsDevice.dBlocks := by
    have inside := holds.inside
    rwa [← holds.sectors,← mount.super] at inside
  exact {
    geometry := mount.geometry m inside fun i past lt => by
      rw [bits i lt,newBit,decide_eq_true_eq]
      rw [mount.bits,nblocks] at lt
      rw [nblocks] at past
      exact Or.inr ⟨past,lt⟩
    durable := mount.durable m
    vnodes := mount.vnodes
    nblocks := nblocks
    bits := bits
    root := by rw [mount.inode,holds.sectors,formatted.root] }

variable {strict : Prop}

theorem newRoot_direct (i : Nat) : newRoot.direct i = 0 := by
  unfold SfsInode.direct newRoot
  split <;> rfl

section
variable (empty : Empty strict n t)
include empty

theorem Empty.unloaded (k : Nat) : ¬t.loaded k := by
  rintro ⟨v,mem,-⟩
  rw [empty.vnodes] at mem
  exact nomatch mem

theorem Empty.noIndirect : t.indirect 1 = 0 := by
  rw [SfsFs.indirect,empty.root]
  rfl

theorem Empty.size_zero : (t.view 1).size = 0 := by
  simp only [view,empty.root]
  rfl

theorem Empty.content_zero (o : Nat) : (t.view 1).content o = 0 := by
  have none_ : t.block 1 (o / 512) = 0 := by
    rw [block,empty.root,newRoot_direct,slot,if_pos empty.noIndirect,ite_self,ite_self]
  simp only [view,data,none_,if_true,Block.bytes_zero]

theorem Empty.vacant (i : Nat) : ¬(t.view 1).Taken i := by
  rintro ⟨inside,-⟩
  rw [FileView.slots,empty.size_zero] at inside
  exact Nat.not_lt_zero i inside

theorem Empty.live_iff (k : Nat) : t.Live k ↔ k = 1 := by
  refine ⟨?_,Or.inl⟩
  rintro (root | isLoaded | ⟨i,taken,-⟩)
  · exact root
  · exact absurd isLoaded (empty.unloaded k)
  · exact absurd taken (empty.vacant i)

theorem Empty.claims_iff (o : Owner) (b : Nat) :
    t.Claims t.Live o b ↔ (o = .super ∧ b = 0) ∨ (o = .inode 1 ∧ b = 1) ∨
      ∃ j < sfsBitblocks n, o = .map j ∧ b = 2 + j := by
  cases o with
  | super => simp [Claims]
  | map j =>
    simp only [Claims,empty.nblocks]
    constructor
    · rintro ⟨small,rfl⟩
      exact Or.inr (Or.inr ⟨j,small,rfl,rfl⟩)
    · rintro (⟨wrong,-⟩ | ⟨wrong,-⟩ | ⟨i,small,same,rfl⟩)
      · cases wrong
      · cases wrong
      · rw [Owner.map.inj same]
        exact ⟨small,rfl⟩
  | inode k =>
    simp only [Claims,empty.live_iff]
    constructor
    · rintro ⟨rfl,rfl⟩
      exact Or.inr (Or.inl ⟨rfl,rfl⟩)
    · rintro (⟨wrong,-⟩ | ⟨same,rfl⟩ | ⟨i,-,wrong,-⟩)
      · cases wrong
      · exact ⟨Owner.inode.inj same,(Owner.inode.inj same).symm⟩
      · cases wrong
  | direct k i =>
    simp only [Claims,empty.live_iff,reduceCtorEq,false_and,and_false,exists_false,or_self,
      iff_false]
    rintro ⟨rfl,rfl,some_⟩
    rw [empty.root] at some_
    exact some_ (newRoot_direct i)
  | indirect k =>
    simp only [Claims,empty.live_iff,reduceCtorEq,false_and,and_false,exists_false,or_self,
      iff_false]
    rintro ⟨rfl,rfl,some_⟩
    exact some_ empty.noIndirect
  | slot k j =>
    simp only [Claims,empty.live_iff,reduceCtorEq,false_and,and_false,exists_false,or_self,
      iff_false]
    rintro ⟨rfl,-,rfl,some_⟩
    rw [slot,if_pos empty.noIndirect] at some_
    exact some_ rfl

theorem Empty.used_iff (size : FsSize n) (b : Nat) :
    b ∈ t.used ↔ b < 2 + sfsBitblocks n := by
  have room := size.room
  have blocks := size.bitblocks
  have le : n ≤ t.sfsFreemap.nbits := empty.nblocks ▸ empty.geometry.le_bits
  simp only [used,Set.mem_ofPred_eq,empty.nblocks]
  constructor
  · rintro ⟨inside,set⟩
    rw [empty.bits b (by omega),newBit,decide_eq_true_eq] at set
    omega
  · intro low
    refine ⟨by omega,?_⟩
    rw [empty.bits b (by omega),newBit,decide_eq_true_eq]
    exact Or.inl low

theorem Empty.inv (size : FsSize n) : Inv strict t where
  consistent := {
    geometry := empty.geometry
    durable := empty.durable
    table := {
      nodup := by rw [empty.vnodes]; exact List.nodup_nil
      live := fun k v found => absurd (loaded_iff.mpr ⟨v,found⟩) (empty.unloaded k)
      referenced := fun k v found => absurd (loaded_iff.mpr ⟨v,found⟩) (empty.unloaded k)
      ops := fun k v found => absurd (loaded_iff.mpr ⟨v,found⟩) (empty.unloaded k) }
    owned := {
      unique := by
        intro a a' b first second
        rw [empty.claims_iff] at first second
        rcases first with ⟨rfl,rfl⟩ | ⟨rfl,rfl⟩ | ⟨j,-,rfl,rfl⟩ <;>
          rcases second with ⟨rfl,other⟩ | ⟨rfl,other⟩ | ⟨j',-,rfl,other⟩ <;>
          first | rfl | omega | (congr 1; omega)
      claimed := by
        intro a b claim
        rw [empty.used_iff size]
        rw [empty.claims_iff] at claim
        rcases claim with ⟨-,rfl⟩ | ⟨-,rfl⟩ | ⟨j,small,-,rfl⟩ <;> omega
      apart := fun _ => Set.notMem_empty _
      holding := Set.empty_subset _
      tight := by
        intro _ b inUsed
        rw [empty.used_iff size] at inUsed
        refine Or.inl ?_
        simp only [empty.claims_iff]
        by_cases first : b = 0
        · exact ⟨_,Or.inl ⟨rfl,first⟩⟩
        · by_cases second : b = 1
          · exact ⟨_,Or.inr (Or.inl ⟨rfl,second⟩)⟩
          · exact ⟨_,Or.inr (Or.inr ⟨b - 2,by omega,rfl,by omega⟩)⟩ }
    root := Or.inl rfl
    typed := fun k h => by
      rw [(empty.live_iff k).mp h,empty.root]
      rfl }
  dir := {
    type := by
      simp only [view,empty.root]
      rfl
    aligned := by rw [empty.size_zero]
    bound := by rw [empty.size_zero]; exact Nat.zero_le _
    distinct := fun i _ taken => absurd taken (empty.vacant i) }
  beyond := fun _ o _ => by rw [empty.content_zero]
  links := fun k h => by
    obtain rfl := (empty.live_iff k).mp h
    have none_ : (t.view 1).linksTo 1 = 0 := by
      by_contra some_
      obtain ⟨i,taken,-⟩ := FileView.linksTo_pos.mp (Nat.pos_of_ne_zero some_)
      exact empty.vacant i taken
    rw [none_,if_pos rfl]
    simp only [view,empty.root]
    rfl

end

end Mounting

/-! Allocation from then on -/

/-- The states reached when only blocks that `sfs_balloc` has returned are passed to
`sfs_bfree`, with those blocks. Whatever else happens leaves the freemap, the superblock
and the shape of the device alone; the contents of the disk and the errors to come may
change. -/
inductive AllocRun (start : SfsFs) : SfsFs → Set Nat → Prop where
  | start : AllocRun start start ∅
  | balloc {s t given result} (run : AllocRun start s given) (call : sfsBalloc s = (result,t)) :
    AllocRun start t {b | b ∈ given ∨ result = .ok b}
  | bfree {s t given b result} (run : AllocRun start s given) (returned : b ∈ given)
    (call : sfsBfree b s = (result,t)) : AllocRun start t given
  | other {s t given} (run : AllocRun start s given) (freemap : t.sfsFreemap = s.sfsFreemap)
    (super : t.sfsSuper = s.sfsSuper) (honest : t.sfsDevice.Honest)
    (dBlocks : t.sfsDevice.dBlocks = s.sfsDevice.dBlocks)
    (dBlocksize : t.sfsDevice.dBlocksize = s.sfsDevice.dBlocksize) : AllocRun start t given

structure Reserved (n : Nat) (s : SfsFs) : Prop where
  geometry : s.Geometry False
  nblocks : s.nblocks = n
  marked : ∀ b < 2 + sfsBitblocks n, s.sfsFreemap.isset b = true

def DataBlock (n b : Nat) : Prop := 2 + sfsBitblocks n ≤ b ∧ b < n

section Allocation
variable {strict : Prop} {n b m : Nat} {s t start : SfsFs} {given : Set Nat}

theorem Empty.reserved (empty : Empty strict n t) (size : FsSize n) : Reserved n t where
  geometry := ⟨empty.geometry.honest,False.elim,empty.geometry.blocksize,empty.geometry.inside,
    empty.geometry.fits,empty.geometry.bits,empty.geometry.tail⟩
  nblocks := empty.nblocks
  marked := fun b low => ((empty.used_iff size b).mpr low).2

section
variable (reserved : Reserved n s)
include reserved

theorem Reserved.mark (b : Nat) : Reserved n (s.mark b) where
  geometry := reserved.geometry.mark b
  nblocks := reserved.nblocks
  marked := fun i low => by rw [mark_freemap,Bitmap.isset_set,reserved.marked i low,Bool.or_true]

theorem Reserved.tick (m : Nat) : Reserved n (s.tick m) :=
  ⟨reserved.geometry.tick m,reserved.nblocks,reserved.marked⟩

theorem Reserved.store (b : Nat) (d : Block) : Reserved n (s.store b d) :=
  ⟨reserved.geometry.store b d,reserved.nblocks,reserved.marked⟩

theorem Reserved.unmark (data : DataBlock n b) :
    Reserved n (s.unmark b) where
  geometry := reserved.geometry.unmark (reserved.nblocks ▸ data.2)
  nblocks := reserved.nblocks
  marked := fun i low => by
    have ne : i ≠ b := by have := data.1; omega
    rw [unmark_freemap,Bitmap.isset_clear,reserved.marked i low,decide_eq_false ne]
    rfl

theorem Reserved.balloc :
    sfsBalloc.wp s (fun b t => DataBlock n b ∧ Reserved n t) (fun _ t => Reserved n t) never := by
  apply wp_ends (sfsBalloc_exact reserved.geometry)
  · rintro b _ ⟨inside,free,m,rfl⟩
    refine ⟨⟨?_,reserved.nblocks ▸ inside⟩,((reserved.mark b).tick m).store b _⟩
    by_contra low
    exact Bool.noConfusion (free.symm.trans (reserved.marked b (by omega)))
  · rintro e _ (⟨-,rfl,-⟩ | ⟨-,-,b,-,-,rfl⟩)
    · exact reserved
    · exact (reserved.mark b).tick 11

theorem Reserved.bfree (data : DataBlock n b) :
    (sfsBfree b).wp s (fun _ t => Reserved n t) never (fun _ t => Reserved n t) := by
  have inside : b < s.nblocks := reserved.nblocks ▸ data.2
  cases set : s.sfsFreemap.isset b with
  | true =>
    apply wp_mono (sfsBfree_spec reserved.geometry ⟨inside,set⟩)
    · rintro _ _ rfl
      exact reserved.unmark data
    · exact fun _ _ h => h
    · exact fun _ _ h => h.elim
  | false =>
    have bound : b < s.sfsFreemap.nbits := Nat.lt_of_lt_of_le inside reserved.geometry.le_bits
    simp only [sfsBfree,onFreemap,Bitmap.unmark,wp_bind,wp_zoom,wp_read,
      wp_assert,bound,decide_true,if_true,set]
    exact reserved

end

theorem AllocRun.reserved (run : AllocRun start s given) (first : Reserved n start) :
    Reserved n s ∧ ∀ b ∈ given, DataBlock n b := by
  induction run with
  | start => exact ⟨first,fun _ mem => nomatch mem⟩
  | @balloc s t given result _ call ih =>
    have spec := ih.1.balloc
    match result, call with
    | .ok b, call =>
      obtain ⟨data,reserved⟩ := wp_ok spec call
      refine ⟨reserved,fun c mem => ?_⟩
      rcases mem with old | new
      · exact ih.2 c old
      · rwa [← Outcome.ok.inj new]
    | .err _, call =>
      exact ⟨wp_err spec call,fun c mem => mem.elim (ih.2 c) (fun wrong => nomatch wrong)⟩
    | .panic _, call => exact (wp_halt spec call).elim
  | @bfree s t given b result _ returned call ih =>
    have spec := ih.1.bfree (ih.2 b returned)
    match result, call with
    | .ok _, call => exact ⟨wp_ok spec call,ih.2⟩
    | .err _, call => exact (wp_err spec call).elim
    | .panic _, call => exact ⟨wp_halt spec call,ih.2⟩
  | @other s t given _ freemap super honest dBlocks dBlocksize ih =>
    have nblocks : t.nblocks = s.nblocks := by rw [SfsFs.nblocks,super]; rfl
    have old := ih.1.geometry
    refine ⟨⟨⟨honest,False.elim,?_,?_,?_,?_,?_⟩,nblocks.trans ih.1.nblocks,?_⟩,ih.2⟩
    · rw [dBlocksize]; exact old.blocksize
    · rw [nblocks,dBlocks]; exact old.inside
    · rw [dBlocks]; exact old.fits
    · rw [nblocks,freemap]; exact old.bits
    · rw [nblocks,freemap]; exact old.tail
    · rw [freemap]; exact ih.1.marked

theorem Empty.loadRoot (empty : Empty True n t) (size : FsSize n) :
    ∃ u v, sfsLoadvnode 1 sfsTypeInval t = (.ok 1,u) ∧ u.vnode? 1 = some v ∧ v.svI = newRoot := by
  have inv := empty.inv size
  have spec : (sfsLoadvnode 1 sfsTypeInval).wp t
      (fun r u => r = 1 ∧ Opened True t.Live ∅ 1 t u) never never :=
    wp_mono (sfsLoadvnode_spec inv.consistent inv.root) (fun _ _ h => h)
      (fun _ _ h => h.1 trivial) (fun _ _ h => h)
  obtain ⟨r,u,ran,rfl,opened⟩ := wp_returns spec
  have isLoaded : u.loaded 1 := by
    rw [loaded_update opened.handle,if_pos rfl]
    rfl
  obtain ⟨v,found⟩ := loaded_iff.mp isLoaded
  refine ⟨u,v,ran,found,?_⟩
  rw [← inode_of_loaded found,opened.inodes 1 inv.root,empty.root]

/-- `mksfs` and the kernel agree: the image is accepted, holds an empty root directory and
has exactly the blocks after the freemap free, and no block but those is ever allocated. -/
theorem mksfs_agrees (build : Build) (name : CString) (short : name.chars.length < 32)
    (noColon : 58 ∉ name.chars) (noSlash : 47 ∉ name.chars) (room : 2 + (n + 4095) / 4096 ≤ n)
    (limit : n ≤ 131072) (old : Nat → Block) :
    ∃ st, mksfs build name 512 n ⟨fun _ => 0,old⟩ = (.ok (),st) ∧
      ∀ g : SfsFs, g.Holds st.disk → ∃ t, sfsDomount g = (.ok (),t) ∧ t.nblocks = n ∧
        (∃ u v, sfsLoadvnode 1 sfsTypeInval t = (.ok 1,u) ∧ u.vnode? 1 = some v ∧
          v.svI = newRoot) ∧
        (∀ i < t.sfsFreemap.nbits, t.sfsFreemap.isset i = false ↔
          2 + (n + 4095) / 4096 ≤ i ∧ i < n) ∧
        ∀ s given, AllocRun t s given →
          sfsBalloc.wp s (fun b _ => 2 + (n + 4095) / 4096 ≤ b ∧ b < n) (fun _ _ => True)
            (fun _ _ => False) := by
  have size : FsSize n := ⟨room,limit⟩
  obtain ⟨⟨⟩,st,ran,formatted⟩ :=
    wp_returns (mksfs_spec build name short noColon noSlash size old)
  refine ⟨st,ran,fun g holds => ?_⟩
  obtain ⟨⟨⟩,t,mounted,mount⟩ :=
    wp_returns (sfsDomount_spec (formatted.mountable size short holds))
  have empty := formatted.empty size short holds mount
  refine ⟨t,mounted,empty.nblocks,empty.loadRoot size,fun i lt => ?_,fun s given run => ?_⟩
  · have bits : t.sfsFreemap.nbits = sfsBitmapsize n := by rw [mount.bits,empty.nblocks]
    rw [empty.bits i lt,newBit,decide_eq_false_iff_not,size.bitblocks]
    omega
  · rw [← size.bitblocks]
    exact wp_ends (run.reserved (empty.reserved size)).1.balloc (fun _ _ h => h.1)
      (fun _ _ _ => trivial)

end Allocation

/-- What `sfs_domount` may get from `kmalloc`, with a disk under it. -/
def freshFs (dBlocks : Nat) (image : Nat → Block) : SfsFs where
  sfsSuper := { spMagic := 0, spNblocks := 0, spVolname := fun _ => 0, reserved := fun _ => 0 }
  sfsSuperdirty := true
  sfsDevice :=
    { dBlocks := dBlocks, dBlocksize := 512, dIo := Lhd.io
      dData := { sectors := image, media := fun _ => true } }
  sfsVnodes := []
  vnodesMax := 0
  sfsFreemap := { nbits := 0, v := fun _ => 0 }
  sfsFreemapdirty := true
  kmalloc := fun _ => true

theorem freshFs_holds {dBlocks : Nat} {image : Nat → Block} (fits : dBlocks * 512 < 2^31)
    (inside : (superOf image).spNblocks.toNat ≤ dBlocks) : (freshFs dBlocks image).Holds image where
  honest := Or.inr ⟨rfl,fun _ => rfl⟩
  reliable := ⟨fun _ => rfl,fun _ => rfl⟩
  blocksize := rfl
  fits := fits
  inside := inside
  sectors := rfl

def volname : CString := ⟨[118,111,108],by decide⟩

theorem Formatted.holds {n : Nat} {image : Nat → Block} (formatted : Formatted n volname.chars image)
    (size : FsSize n) : (freshFs n image).Holds image := by
  have limit := size.limit
  apply freshFs_holds
  · omega
  · rw [formatted.superOf_eq (by decide),size.nblocks]

theorem mksfs_holds {n : Nat} (size : FsSize n) {build : Build} {old : Nat → Block} {st : MksfsState}
    (ran : mksfs build volname 512 n ⟨fun _ => 0,old⟩ = (.ok (),st)) :
    (freshFs n st.disk).Holds st.disk :=
  (wp_ok (mksfs_spec build volname (by decide) (by decide) (by decide) size old) ran).holds size

/-- A disk of 4097 blocks, whose freemap takes two, made on a little-endian host. -/
theorem mksfs_agrees_4097 : ∃ st t,
    mksfs (.host .little) volname 512 4097 ⟨fun _ => 0,fun _ => Block.zero⟩ = (.ok (),st) ∧
      sfsDomount (freshFs 4097 st.disk) = (.ok (),t) ∧ t.nblocks = 4097 ∧
      ∀ s given, AllocRun t s given →
        sfsBalloc.wp s (fun b _ => 2 + (4097 + 4095) / 4096 ≤ b ∧ b < 4097) (fun _ _ => True)
          (fun _ _ => False) := by
  have size : FsSize 4097 := ⟨by decide,by decide⟩
  obtain ⟨st,ran,mounts⟩ := mksfs_agrees (.host .little) volname (by decide) (by decide)
    (by decide) size.room size.limit fun _ => Block.zero
  obtain ⟨t,mounted,nblocks,-,-,balloc⟩ := mounts _ (mksfs_holds size ran)
  exact ⟨st,t,ran,mounted,nblocks,balloc⟩

def newFs (n : Nat) : SfsFs :=
  (sfsDomount (freshFs n (mksfs .target volname 512 n ⟨fun _ => 0,fun _ => Block.zero⟩).2.disk)).2

theorem newFs_empty {n : Nat} (size : FsSize n) : Empty True n (newFs n) := by
  obtain ⟨⟨⟩,st,ran,formatted⟩ := wp_returns (mksfs_spec .target volname (by decide)
    (by decide) (by decide) size fun _ => Block.zero)
  have holds := formatted.holds size
  obtain ⟨⟨⟩,t,mounted,mount⟩ :=
    wp_returns (sfsDomount_spec (formatted.mountable size (by decide) holds))
  have same : newFs n = t := by rw [newFs,ran,mounted]
  rw [same]
  exact formatted.empty size (by decide) holds mount

theorem newFs_inv {n : Nat} (size : FsSize n) : Inv True (newFs n) := (newFs_empty size).inv size

end Os161
