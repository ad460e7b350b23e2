import Mathlib.Data.Nat.Bitwise
import Os161.Kernel

/-! `lib/bitmap.c`: an array of bits kept in bytes, least significant bit first. -/
namespace Os161

/-- `v` is the byte array; only its first `divRoundUp nbits 8` bytes belong to it. -/
structure Bitmap where
  nbits : Nat
  v : Nat → UInt8

namespace Bitmap

def mask (offset : Nat) : UInt8 := (1 : UInt8) <<< UInt8.ofNat offset

def words (b : Bitmap) : Nat := divRoundUp b.nbits 8

def setByte (b : Bitmap) (ix : Nat) (w : UInt8) : Bitmap :=
  { b with v := fun i => if i = ix then w else b.v i }

def set (b : Bitmap) (i : Nat) : Bitmap := b.setByte (i / 8) (b.v (i / 8) ||| mask (i % 8))
def clear (b : Bitmap) (i : Nat) : Bitmap := b.setByte (i / 8) (b.v (i / 8) &&& ~~~ mask (i % 8))

def isset (b : Bitmap) (i : Nat) : Bool := b.v (i / 8) &&& mask (i % 8) != 0

/-- `bitmap_create` once both allocations have succeeded: all clear, except for the
bits of the last byte past `nbits`. -/
def create (nbits : Nat) : Bitmap :=
  let words := divRoundUp nbits 8
  let ix := words - 1
  let overbits := nbits - ix * 8
  let tail := (List.range' overbits (8 - overbits)).foldl (fun w j => w ||| mask j) 0
  { nbits := nbits
    v := fun i => if nbits / 8 < words ∧ i = ix then tail else 0 }

/-- The inner loop of `bitmap_alloc`: the first clear bit of byte `ix` from `offset` on. -/
def allocBit (ix : Nat) : Nat → Nat → Call Bitmap Nat
  | 0, _ => panic .bitmapAllocWord
  | left + 1, offset => do
    let b ← read
    if b.v ix &&& mask offset = 0 then
      put (b.setByte ix (b.v ix ||| mask offset))
      let index := ix * 8 + offset
      assert (index < b.nbits) (.bitmapAllocRange index)
      return index
    else allocBit ix left (offset + 1)

/-- The outer loop: `left` bytes remain, starting with byte `ix`. -/
def allocWord : Nat → Nat → Call Bitmap Nat
  | 0, _ => fail .enospc
  | left + 1, ix => do
    let b ← read
    if b.v ix ≠ 0xff then allocBit ix 8 0 else allocWord left (ix + 1)

def alloc : Call Bitmap Nat := do
  let b ← read
  allocWord b.words 0

def mark (index : Nat) : Call Bitmap Unit := do
  let b ← read
  assert (index < b.nbits) (.bitmapMarkRange index)
  assert (!b.isset index) (.bitmapMarkSet index)
  put (b.set index)

def unmark (index : Nat) : Call Bitmap Unit := do
  let b ← read
  assert (index < b.nbits) (.bitmapUnmarkRange index)
  assert (b.isset index) (.bitmapUnmarkClear index)
  put (b.clear index)

theorem mask_toNat {o : Nat} (h : o < 8) : (mask o).toNat = 2^o := by
  have small : 2^o < 2^8 := Nat.pow_lt_pow_right (by decide) h
  rw [mask,UInt8.toNat_shiftLeft,UInt8.toNat_ofNat',Nat.mod_eq_of_lt (show o < 2^8 by omega),
    Nat.mod_eq_of_lt h,UInt8.toNat_one,Nat.one_shiftLeft,Nat.mod_eq_of_lt small]

theorem and_mask_eq_zero (w : UInt8) {o : Nat} (h : o < 8) :
    w &&& mask o = 0 ↔ w.toNat.testBit o = false := by
  rw [← UInt8.toNat_inj,UInt8.toNat_and,mask_toNat h,Nat.and_two_pow]
  cases w.toNat.testBit o <;> simp

theorem isset_eq (b : Bitmap) (i : Nat) : b.isset i = (b.v (i / 8)).toNat.testBit (i % 8) := by
  have zero := and_mask_eq_zero (b.v (i / 8)) (Nat.mod_lt i (by decide : 0 < 8))
  unfold isset
  cases h : (b.v (i / 8)).toNat.testBit (i % 8)
  · simpa using zero.mpr h
  · simpa using fun eq => Bool.noConfusion ((zero.mp eq).symm.trans h)

@[simp] theorem isset_set (b : Bitmap) (i j : Nat) :
    (b.set i).isset j = (decide (j = i) || b.isset j) := by
  have low : i % 8 < 8 := Nat.mod_lt i (by decide)
  simp only [isset_eq,set,setByte]
  by_cases same : j / 8 = i / 8
  · rw [if_pos same,same,UInt8.toNat_or,Nat.testBit_or,mask_toNat low,Nat.testBit_two_pow,
      Bool.or_comm]
    congr 1
    simp only [decide_eq_decide]
    omega
  · have ne : j ≠ i := fun eq => same (by rw [eq])
    simp [same,ne]

@[simp] theorem isset_clear (b : Bitmap) (i j : Nat) :
    (b.clear i).isset j = (!decide (j = i) && b.isset j) := by
  have low : i % 8 < 8 := Nat.mod_lt i (by decide)
  have lowj : j % 8 < 8 := Nat.mod_lt j (by decide)
  simp only [isset_eq,clear,setByte]
  by_cases same : j / 8 = i / 8
  · have small : 2^(i % 8) < 2^8 := Nat.pow_lt_pow_right (by decide) low
    rw [if_pos same,same,UInt8.toNat_and,Nat.testBit_and,UInt8.toNat_not,mask_toNat low,
      show UInt8.size - 1 - 2^(i % 8) = 2^8 - (2^(i % 8) + 1) by simp only [UInt8.size]; omega,
      Nat.testBit_two_pow_sub_succ small,Nat.testBit_two_pow,Bool.and_comm]
    congr 1
    simp only [lowj,decide_true,Bool.true_and]
    congr 1
    simp only [decide_eq_decide]
    omega
  · have ne : j ≠ i := fun eq => same (by rw [eq])
    simp [same,ne]

theorem byte_full_iff (w : UInt8) : w = 0xff ↔ ∀ o < 8, w.toNat.testBit o = true := by
  constructor
  · rintro rfl
    decide
  · intro full
    apply UInt8.toNat_inj.mp
    apply Nat.eq_of_testBit_eq
    intro o
    by_cases h : o < 8
    · rw [full o h]
      have : ∀ k < 8, (0xff : UInt8).toNat.testBit k = true := by decide
      exact (this o h).symm
    · have low : w.toNat < 2^o :=
        Nat.lt_of_lt_of_le w.toNat_lt (Nat.pow_le_pow_right (by decide) (by omega))
      have low' : (0xff : UInt8).toNat < 2^o :=
        Nat.lt_of_lt_of_le (UInt8.toNat_lt _) (Nat.pow_le_pow_right (by decide) (by omega))
      rw [Nat.testBit_lt_two_pow low,Nat.testBit_lt_two_pow low']

theorem isset_of_full {b : Bitmap} {i : Nat} (full : b.v (i / 8) = 0xff) : b.isset i = true := by
  rw [isset_eq]
  exact (byte_full_iff _).mp full _ (Nat.mod_lt _ (by decide))

/-- Bits past `nbits` in the last byte are in use, as `bitmap_create` leaves them. -/
def Sealed (b : Bitmap) : Prop := ∀ i, b.nbits ≤ i → i < b.words * 8 → b.isset i = true

def FirstFit (b : Bitmap) (index : Nat) (next : Bitmap) : Prop :=
  index < b.nbits ∧ b.isset index = false ∧ (∀ j < index, b.isset j = true) ∧ next = b.set index

theorem allocBit_spec (b : Bitmap) (isSealed : b.Sealed) (ix left offset : Nat)
    (range : offset + left = 8) (inside : ix < b.words)
    (before : ∀ j < ix * 8 + offset, b.isset j = true)
    (room : ∃ o, offset ≤ o ∧ o < 8 ∧ (b.v ix).toNat.testBit o = false) :
    (allocBit ix left offset).wp b (FirstFit b) never never := by
  induction left generalizing offset with
  | zero =>
    obtain ⟨o,low,high,_⟩ := room
    omega
  | succ left ih =>
    have small : offset < 8 := by omega
    have atByte : (ix * 8 + offset) / 8 = ix := by omega
    have atBit : (ix * 8 + offset) % 8 = offset := by omega
    simp only [allocBit,wp_bind,wp_read]
    by_cases clear : (b.v ix).toNat.testBit offset = false
    · have unset : b.isset (ix * 8 + offset) = false := by rw [isset_eq,atByte,atBit,clear]
      have bound : ix * 8 + offset < b.nbits := by
        by_contra outside
        have := isSealed _ (by omega) (show ix * 8 + offset < b.words * 8 by omega)
        rw [unset] at this
        exact Bool.noConfusion this
      rw [if_pos ((and_mask_eq_zero _ small).mpr clear)]
      simp only [wp_bind,wp_put,wp_assert,bound,decide_true,if_true,
        wp_pure]
      exact ⟨bound,unset,before,by rw [set,atByte,atBit]⟩
    · have set : (b.v ix).toNat.testBit offset = true := by simpa using clear
      rw [if_neg (by rw [and_mask_eq_zero _ small,set]; decide)]
      apply ih (offset + 1) (by omega)
      · intro j hj
        by_cases last : j = ix * 8 + offset
        · rw [last,isset_eq,atByte,atBit,set]
        · exact before j (by omega)
      · obtain ⟨o,low,high,free⟩ := room
        refine ⟨o,?_,high,free⟩
        have : o ≠ offset := by rintro rfl; rw [set] at free; exact Bool.noConfusion free
        omega

theorem allocWord_spec (b : Bitmap) (isSealed : b.Sealed) (left ix : Nat)
    (range : ix + left = b.words) (before : ∀ j < ix * 8, b.isset j = true) :
    (allocWord left ix).wp b (FirstFit b)
      (fun e t => e = .enospc ∧ t = b ∧ ∀ j < b.words * 8, b.isset j = true) never := by
  induction left generalizing ix with
  | zero =>
    rw [allocWord,wp_fail]
    exact ⟨rfl,rfl,fun j hj => before j (by omega)⟩
  | succ left ih =>
    simp only [allocWord,wp_bind,wp_read]
    by_cases full : b.v ix = 0xff
    · rw [if_neg (not_not_intro full)]
      apply ih (ix + 1) (by omega)
      intro j hj
      by_cases inside : j < ix * 8
      · exact before j inside
      · apply isset_of_full
        rw [show j / 8 = ix by omega]
        exact full
    · rw [if_pos full]
      have room : ∃ o, 0 ≤ o ∧ o < 8 ∧ (b.v ix).toNat.testBit o = false := by
        by_contra none
        apply full
        rw [byte_full_iff]
        intro o ho
        by_contra free
        exact none ⟨o,Nat.zero_le o,ho,by simpa using free⟩
      apply wp_mono (allocBit_spec b isSealed ix 8 0 (by omega) (by omega) before room)
      · exact fun _ _ h => h
      · exact fun _ _ h => h.elim
      · exact fun _ _ h => h.elim

theorem alloc_spec (b : Bitmap) (isSealed : b.Sealed) :
    alloc.wp b (FirstFit b)
      (fun e t => e = .enospc ∧ t = b ∧ ∀ j < b.words * 8, b.isset j = true) never := by
  simp only [alloc,wp_bind,wp_read]
  exact allocWord_spec b isSealed b.words 0 (by omega) (by omega)

theorem unmark_spec (b : Bitmap) {i : Nat} (bound : i < b.nbits) (used : b.isset i = true) :
    (unmark i).wp b (fun _ t => t = b.clear i) never never := by
  simp [unmark,bound,used]

end Bitmap
end Os161
