import Mathlib.Data.List.GetD
import Os161.Kernel

/-! `kern/sfs.h`: the on-disk structures, and their images in a sector. The kernel reads
and writes the structures as raw bytes on a big-endian machine, so a sector and a
structure determine each other. -/
namespace Os161

/-- `SFS_BITMAPSIZE`: the disk size rounded up to whole bitmap blocks of 4096 bits. -/
def sfsBitmapsize (nblocks : Nat) : Nat := divRoundUp nblocks 4096 * 4096

def sfsBitblocks (nblocks : Nat) : Nat := sfsBitmapsize nblocks / 4096

theorem sfsBitblocks_eq (nblocks : Nat) : sfsBitblocks nblocks = divRoundUp nblocks 4096 := by
  simp [sfsBitblocks,sfsBitmapsize]

theorem sfsBitmapsize_eq (nblocks : Nat) : sfsBitmapsize nblocks = sfsBitblocks nblocks * 4096 := by
  rw [sfsBitblocks_eq,sfsBitmapsize]

theorem le_sfsBitmapsize {nblocks : Nat} (bound : nblocks < 2^31) :
    nblocks ≤ sfsBitmapsize nblocks := by
  simp only [sfsBitmapsize,divRoundUp]
  omega

def sfsMagic : UInt32 := 0xabadf001

@[ext] structure SfsSuper where
  spMagic : UInt32
  spNblocks : UInt32
  spVolname : Fin 32 → UInt8
  reserved : Fin 118 → UInt32

@[ext] structure SfsInode where
  sfiSize : UInt32
  sfiType : UInt16
  sfiLinkcount : UInt16
  sfiDirect : Fin 15 → UInt32
  sfiIndirect : UInt32
  sfiWaste : Fin 110 → UInt32

@[ext] structure SfsDir where
  sfdIno : UInt32
  sfdName : Fin 60 → UInt8

/-- `SFS_TYPE_INVAL`, `SFS_TYPE_FILE` and `SFS_TYPE_DIR`. -/
def sfsTypeInval : UInt16 := 0
def sfsTypeFile : UInt16 := 1
def sfsTypeDir : UInt16 := 2

namespace SfsInode

def wordAt (i : SfsInode) (j : Nat) : UInt32 :=
  if j = 0 then i.sfiSize
  else if j = 1 then pack16 i.sfiType i.sfiLinkcount
  else if h : j - 2 < 15 then i.sfiDirect ⟨j - 2,h⟩
  else if j = 17 then i.sfiIndirect
  else if h : j - 18 < 110 then i.sfiWaste ⟨j - 18,h⟩
  else 0

def toBlock (i : SfsInode) : Block := Block.ofWords i.wordAt

def ofBlock (b : Block) : SfsInode where
  sfiSize := b.word 0
  sfiType := high16 (b.word 1)
  sfiLinkcount := low16 (b.word 1)
  sfiDirect := fun k => b.word (k.val + 2)
  sfiIndirect := b.word 17
  sfiWaste := fun k => b.word (k.val + 18)

@[simp] theorem ofBlock_toBlock (i : SfsInode) : ofBlock i.toBlock = i := by
  have word (j : Nat) (h : j < 128) : i.toBlock.word j = i.wordAt j := Block.word_ofWords _ h
  ext k
  · simp [ofBlock,word,wordAt]
  · simp [ofBlock,word,wordAt]
  · simp [ofBlock,word,wordAt]
  · have := k.isLt
    simp [ofBlock,word (k.val + 2) (by omega),wordAt]
  · simp [ofBlock,word,wordAt]
  · have := k.isLt
    have past : ¬k.val + 16 < 15 := by omega
    simp [ofBlock,word (k.val + 18) (by omega),wordAt,past]

@[simp] theorem toBlock_ofBlock (b : Block) : (ofBlock b).toBlock = b := by
  apply Block.ext_words
  intro j h
  rw [toBlock,Block.word_ofWords _ h]
  simp only [wordAt,ofBlock,pack16_halves]
  split
  · subst j; rfl
  split
  · subst j; rfl
  split
  · congr 1; omega
  split
  · subst j; rfl
  split
  · congr 1; omega
  · omega

def direct (i : SfsInode) (k : Nat) : Nat := if h : k < 15 then (i.sfiDirect ⟨k,h⟩).toNat else 0

def setDirect (i : SfsInode) (k block : Nat) : SfsInode :=
  { i with sfiDirect := fun j => if j.val = k then UInt32.ofNat block else i.sfiDirect j }

theorem direct_setDirect (i : SfsInode) {k block : Nat} (slot : k < 15) (fits : block < 2^32)
    (j : Nat) : (i.setDirect k block).direct j = if j = k then block else i.direct j := by
  simp only [direct,setDirect]
  by_cases h : j < 15
  · simp only [h,dif_pos]
    split
    · rw [UInt32.toNat_ofNat',Nat.mod_eq_of_lt fits]
    · rfl
  · have ne : j ≠ k := by omega
    simp [h,ne]

end SfsInode

namespace SfsSuper

def toBlock (sp : SfsSuper) : Block := fun i =>
  if i.val < 4 then be32Byte sp.spMagic i.val
  else if i.val < 8 then be32Byte sp.spNblocks (i.val - 4)
  else if h : i.val - 8 < 32 then sp.spVolname ⟨i.val - 8,h⟩
  else be32Byte (sp.reserved ⟨(i.val - 40) / 4,by omega⟩) (i.val % 4)

def ofBlock (b : Block) : SfsSuper where
  spMagic := b.word 0
  spNblocks := b.word 1
  spVolname := fun k => b.bytes (k.val + 8)
  reserved := fun k => b.word (k.val + 10)

@[simp] theorem ofBlock_toBlock (sp : SfsSuper) : ofBlock sp.toBlock = sp := by
  have byte (i : Nat) (h : i < 512) : sp.toBlock.bytes i = sp.toBlock ⟨i,h⟩ := Block.bytes_of_lt _ h
  ext k
  · simp [ofBlock,Block.word,byte,toBlock]
  · simp [ofBlock,Block.word,byte,toBlock]
  · have := k.isLt
    have past : ¬k.val + 8 < 4 ∧ ¬k.val + 8 < 8 := by omega
    simp [ofBlock,byte (k.val + 8) (by omega),toBlock,past]
  · have := k.isLt
    have far (r : Nat) (h : r < 4) : sp.toBlock.bytes (4 * (k.val + 10) + r) =
        be32Byte (sp.reserved k) r := by
      rw [byte _ (by omega)]
      simp only [toBlock]
      rw [if_neg (by omega),if_neg (by omega),dif_neg (by omega)]
      congr 1
      · congr 1
        apply Fin.ext
        simp only
        omega
      · omega
    have first := far 0 (by omega)
    simp only [Nat.add_zero] at first
    simp only [ofBlock,Block.word,first,far 1 (by omega),far 2 (by omega),far 3 (by omega),
      be32_bytes]

def terminate (sp : SfsSuper) : SfsSuper :=
  { sp with spVolname := fun k => if k.val = 31 then 0 else sp.spVolname k }

@[simp] theorem terminate_terminate (sp : SfsSuper) : sp.terminate.terminate = sp.terminate := by
  ext i <;> simp only [terminate]
  split <;> rfl

end SfsSuper

/-- A C string: the bytes before its terminator, none of which is zero. -/
structure CString where
  chars : List UInt8
  noNul : 0 ∉ chars
  deriving DecidableEq

theorem reserved_lt (i : Fin 512) : (i.val - 40) / 4 < 118 := by omega

namespace SfsDir

def toBytes (sd : SfsDir) : Nat → UInt8 := fun i =>
  if i < 4 then be32Byte sd.sfdIno i else if h : i - 4 < 60 then sd.sfdName ⟨i - 4,h⟩ else 0

def ofBytes (m : Nat → UInt8) : SfsDir where
  sfdIno := be32 (m 0) (m 1) (m 2) (m 3)
  sfdName := fun k => m (k.val + 4)

@[simp] theorem ofBytes_toBytes (sd : SfsDir) : ofBytes sd.toBytes = sd := by
  ext k
  · simp [ofBytes,toBytes]
  · have past : ¬k.val + 4 < 4 := by omega
    simp [ofBytes,toBytes,past]

theorem ofBytes_congr {a b : Nat → UInt8} (same : ∀ i < 64, a i = b i) : ofBytes a = ofBytes b := by
  ext k
  · simp [ofBytes,same]
  · have := k.isLt
    simp [ofBytes,same (k.val + 4) (by omega)]

/-- The name as `strcmp` sees it once the last byte has been forced to zero. -/
def name (sd : SfsDir) : List UInt8 :=
  ((List.finRange 59).map fun k => sd.sfdName (k.castLE (by decide))).takeWhile (· ≠ 0)

def make (ino : Nat) (name : List UInt8) : SfsDir where
  sfdIno := UInt32.ofNat ino
  sfdName := fun k => name.getD k.val 0

theorem make_ino {ino : Nat} (fits : ino < 2^32) (name : List UInt8) :
    (make ino name).sfdIno.toNat = ino := by
  rw [make,UInt32.toNat_ofNat',Nat.mod_eq_of_lt fits]

theorem make_name (ino : Nat) (name : CString) (short : name.chars.length < 60) :
    (make ino name.chars).name = name.chars := by
  have stored : ((List.finRange 59).map fun k : Fin 59 =>
      (make ino name.chars).sfdName (k.castLE (by decide))) =
      name.chars ++ List.replicate (59 - name.chars.length) 0 := by
    apply List.ext_getElem
    · simp; omega
    · intro i low high
      simp only [List.length_map,List.length_finRange] at low
      simp only [List.getElem_map,List.getElem_finRange,make,Fin.val_castLE,Fin.val_cast]
      by_cases inside : i < name.chars.length
      · rw [List.getElem_append_left inside,List.getD_eq_getElem _ _ inside]
      · rw [List.getElem_append_right (by omega),List.getElem_replicate,
          List.getD_eq_default _ _ (by omega)]
  rw [SfsDir.name,stored,List.takeWhile_append_of_pos]
  · cases 59 - name.chars.length <;> simp [List.replicate]
  · intro c mem
    simp only [ne_eq,decide_eq_true_eq]
    rintro rfl
    exact name.noNul mem

end SfsDir
end Os161
