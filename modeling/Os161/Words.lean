import Mathlib.Tactic.Common
import Mathlib.Data.Int.ModEq

/-! Fixed-width words: the conversions a 32-bit C compiler makes, and the
big-endian images of 32-bit words in a sector. -/
namespace Os161

def u32 (x : Int) : Nat := (x % 2^32).toNat

/-- Conversion to a signed 32-bit type (`int`, `off_t`), two's complement. -/
def i32 (x : Int) : Int := Int.bmod x (2^32)

theorem u32_of_bounds {x : Int} (low : 0 ≤ x) (high : x < 2^32) : u32 x = x.toNat := by
  rw [u32,Int.emod_eq_of_lt low high]

@[simp] theorem u32_natCast {n : Nat} (bound : n < 2^32) : u32 (n : Int) = n := by
  rw [u32_of_bounds (by omega) (by omega)]; rfl

theorem u32_lt (x : Int) : u32 x < 2^32 := by
  unfold u32; omega

theorem i32_of_bounds {x : Int} (low : -2^31 ≤ x) (high : x < 2^31) : i32 x = x := by
  unfold i32
  apply Int.bmod_eq_of_le <;> omega

theorem i32_of_wrap {x : Int} (low : 2^31 ≤ x) (high : x < 2^32 + 2^31) : i32 x = x - 2^32 := by
  unfold i32
  rw [← Int.sub_bmod_right]
  apply Int.bmod_eq_of_le <;> omega

theorem i32_i32_add (x y : Int) : i32 (i32 x + y) = i32 (x + y) := by
  simp [i32]

theorem u32_u32_sub (x y : Int) : u32 ((u32 x : Int) - y) = u32 (x - y) := by
  unfold u32; omega

theorem u32_add_period (x : Int) : u32 (x + 2^32) = u32 x := by
  unfold u32; omega

theorem i32_low (x : Int) : -2^31 ≤ i32 x := by
  unfold i32; exact Int.le_bmod (by decide)

theorem i32_high (x : Int) : i32 x < 2^31 := by
  unfold i32; exact Int.bmod_lt (by decide)

theorem u32_zero : u32 0 = 0 := rfl

-- the lemmas above are all that proofs need, and unfolding the literals is slow
attribute [irreducible] u32 i32

def be32 (a b c d : UInt8) : UInt32 :=
  UInt32.ofNat (a.toNat * 2^24 + b.toNat * 2^16 + c.toNat * 2^8 + d.toNat)

/-- Byte `i` of the big-endian image of a word. -/
def be32Byte (w : UInt32) (i : Nat) : UInt8 := UInt8.ofNat (w.toNat / 2^(8 * (3 - i)))

theorem be32_toNat (a b c d : UInt8) :
    (be32 a b c d).toNat = a.toNat * 2^24 + b.toNat * 2^16 + c.toNat * 2^8 + d.toNat := by
  have := a.toNat_lt
  have := b.toNat_lt
  have := c.toNat_lt
  have := d.toNat_lt
  rw [be32,UInt32.toNat_ofNat',Nat.mod_eq_of_lt (by omega)]

theorem be32Byte_toNat (w : UInt32) (i : Nat) :
    (be32Byte w i).toNat = w.toNat / 2^(8 * (3 - i)) % 2^8 := by
  rw [be32Byte,UInt8.toNat_ofNat']

@[simp] theorem be32_bytes (w : UInt32) :
    be32 (be32Byte w 0) (be32Byte w 1) (be32Byte w 2) (be32Byte w 3) = w := by
  apply UInt32.toNat_inj.mp
  have := w.toNat_lt
  simp only [be32_toNat,be32Byte_toNat]
  omega

theorem be32Byte_be32 (a b c d : UInt8) :
    be32Byte (be32 a b c d) 0 = a ∧ be32Byte (be32 a b c d) 1 = b ∧
    be32Byte (be32 a b c d) 2 = c ∧ be32Byte (be32 a b c d) 3 = d := by
  have := a.toNat_lt
  have := b.toNat_lt
  have := c.toNat_lt
  have := d.toNat_lt
  refine ⟨?_,?_,?_,?_⟩ <;> apply UInt8.toNat_inj.mp <;>
    simp only [be32_toNat,be32Byte_toNat] <;> omega

def pack16 (high low : UInt16) : UInt32 := UInt32.ofNat (high.toNat * 2^16 + low.toNat)
def high16 (w : UInt32) : UInt16 := UInt16.ofNat (w.toNat / 2^16)
def low16 (w : UInt32) : UInt16 := UInt16.ofNat w.toNat

theorem pack16_toNat (high low : UInt16) :
    (pack16 high low).toNat = high.toNat * 2^16 + low.toNat := by
  have := high.toNat_lt
  have := low.toNat_lt
  rw [pack16,UInt32.toNat_ofNat',Nat.mod_eq_of_lt (by omega)]

@[simp] theorem high16_pack16 (high low : UInt16) : high16 (pack16 high low) = high := by
  apply UInt16.toNat_inj.mp
  have := high.toNat_lt
  have := low.toNat_lt
  rw [high16,UInt16.toNat_ofNat',pack16_toNat]
  omega

@[simp] theorem low16_pack16 (high low : UInt16) : low16 (pack16 high low) = low := by
  apply UInt16.toNat_inj.mp
  have := high.toNat_lt
  have := low.toNat_lt
  rw [low16,UInt16.toNat_ofNat',pack16_toNat]
  omega

@[simp] theorem pack16_halves (w : UInt32) : pack16 (high16 w) (low16 w) = w := by
  apply UInt32.toNat_inj.mp
  have := w.toNat_lt
  rw [pack16_toNat,high16,low16,UInt16.toNat_ofNat',UInt16.toNat_ofNat']
  omega

abbrev Block := Fin 512 → UInt8

namespace Block

def zero : Block := fun _ => 0

/-- The sector as memory: what a pointer to its buffer sees. -/
def bytes (b : Block) : Nat → UInt8 := fun i => if h : i < 512 then b ⟨i,h⟩ else 0

/-- The 512 bytes at the start of a region of memory. -/
def ofBytes (m : Nat → UInt8) : Block := fun i => m i.val

/-- The sector read as an array of 128 big-endian words. -/
def word (b : Block) (j : Nat) : UInt32 :=
  be32 (b.bytes (4 * j)) (b.bytes (4 * j + 1)) (b.bytes (4 * j + 2)) (b.bytes (4 * j + 3))

def ofWords (f : Nat → UInt32) : Block := fun i => be32Byte (f (i.val / 4)) (i.val % 4)

theorem bytes_of_lt (b : Block) {i : Nat} (h : i < 512) : b.bytes i = b ⟨i,h⟩ := by
  simp [bytes,h]

@[simp] theorem bytes_val (b : Block) (i : Fin 512) : b.bytes i.val = b i := by
  simp [bytes]

@[simp] theorem ofBytes_bytes (b : Block) : ofBytes b.bytes = b := by
  funext i; simp [ofBytes]

@[simp] theorem bytes_zero (i : Nat) : zero.bytes i = 0 := by
  simp [bytes,zero]

theorem bytes_ofBytes (m : Nat → UInt8) {i : Nat} (h : i < 512) : (ofBytes m).bytes i = m i := by
  simp [bytes,ofBytes,h]

theorem ext_bytes {a b : Block} (same : ∀ i < 512, a.bytes i = b.bytes i) : a = b := by
  funext i
  simpa using same i.val i.isLt

@[simp] theorem word_zero (j : Nat) : zero.word j = 0 := by
  simp [word,be32]

theorem word_ofWords (f : Nat → UInt32) {j : Nat} (h : j < 128) : (ofWords f).word j = f j := by
  have at_ (r : Nat) (hr : r < 4) : (ofWords f).bytes (4 * j + r) = be32Byte (f j) r := by
    rw [bytes_of_lt _ (by omega)]
    simp only [ofWords]
    rw [show (4 * j + r) / 4 = j by omega,show (4 * j + r) % 4 = r by omega]
  have first := at_ 0 (by omega)
  simp only [Nat.add_zero] at first
  rw [word,first,at_ 1 (by omega),at_ 2 (by omega),at_ 3 (by omega),be32_bytes]

theorem ofWords_word (b : Block) : ofWords b.word = b := by
  funext i
  obtain ⟨b0,b1,b2,b3⟩ := be32Byte_be32 (b.bytes (4 * (i.val / 4))) (b.bytes (4 * (i.val / 4) + 1))
    (b.bytes (4 * (i.val / 4) + 2)) (b.bytes (4 * (i.val / 4) + 3))
  have split : i.val % 4 = 0 ∨ i.val % 4 = 1 ∨ i.val % 4 = 2 ∨ i.val % 4 = 3 := by omega
  rw [← bytes_val b i]
  rcases split with h | h | h | h <;> simp only [ofWords,word,h]
  · rw [b0]; congr 1; omega
  · rw [b1]; congr 1; omega
  · rw [b2]; congr 1; omega
  · rw [b3]; congr 1; omega

theorem ext_words {a b : Block} (same : ∀ j < 128, a.word j = b.word j) : a = b := by
  rw [← ofWords_word a,← ofWords_word b]
  funext i
  simp only [ofWords]
  rw [same _ (by omega)]

def setWord (b : Block) (j : Nat) (w : UInt32) : Block :=
  ofWords fun i => if i = j then w else b.word i

theorem word_setWord (b : Block) (j : Nat) (w : UInt32) {i : Nat} (h : i < 128) :
    (b.setWord j w).word i = if i = j then w else b.word i := by
  rw [setWord,word_ofWords _ h]

end Block

/-- `memmove(dst + at, src, n)`: the ranges are read before they are written. -/
def overwrite (dst : Nat → UInt8) (start : Nat) (src : Nat → UInt8) (n : Nat) : Nat → UInt8 :=
  fun i => if start ≤ i ∧ i < start + n then src (i - start) else dst i

@[simp] theorem overwrite_none (dst : Nat → UInt8) (start : Nat) (src : Nat → UInt8) :
    overwrite dst start src 0 = dst := by
  funext i
  simp only [overwrite]
  split
  · omega
  · rfl

theorem overwrite_append (dst : Nat → UInt8) (start : Nat) (src : Nat → UInt8) (n m : Nat) :
    overwrite (overwrite dst start src n) (start + n) (fun i => src (n + i)) m =
      overwrite dst start src (n + m) := by
  funext i
  simp only [overwrite]
  by_cases h : start + n ≤ i ∧ i < start + n + m
  · rw [if_pos h,if_pos (by omega),show n + (i - (start + n)) = i - start by omega]
  · rw [if_neg h]
    by_cases h' : start ≤ i ∧ i < start + n
    · rw [if_pos h',if_pos (by omega)]
    · rw [if_neg h',if_neg (by omega)]

end Os161
