import Os161.Exec
import Os161.Words

/-! `lib/libc/memcpy.c` and `lib/libc/memmove.c`, over any machine that loads and stores bytes and
words. A `long` has four bytes, and addresses have 32 bits. -/
namespace Os161

/-- The units in which the loops copy: `char` and `long`. -/
inductive Width where
  | byte | word
  deriving DecidableEq, Repr

namespace Width

def size : Width → Nat
  | byte => 1
  | word => 4

def Value : Width → Type
  | byte => UInt8
  | word => UInt32

def image : (w : Width) → w.Value → Nat → UInt8
  | byte, value, _ => value
  | word, value, i => be32Byte value i

def fetch : (w : Width) → (Nat → UInt8) → Nat → w.Value
  | byte, mem, a => mem a
  | word, mem, a => be32 (mem a) (mem (a + 1)) (mem (a + 2)) (mem (a + 3))

theorem size_pos (w : Width) : 0 < w.size := by cases w <;> decide

theorem image_fetch (w : Width) (mem : Nat → UInt8) (a : Nat) {j : Nat} (inside : j < w.size) :
    w.image (w.fetch mem a) j = mem (a + j) := by
  cases w with
  | byte =>
    obtain rfl : j = 0 := Nat.lt_one_iff.mp inside
    rfl
  | word =>
    obtain ⟨b0,b1,b2,b3⟩ := be32Byte_be32 (mem a) (mem (a + 1)) (mem (a + 2)) (mem (a + 3))
    have cases_ : j = 0 ∨ j = 1 ∨ j = 2 ∨ j = 3 := by
      simp only [size] at inside
      omega
    rcases cases_ with rfl | rfl | rfl | rfl
    · exact b0
    · exact b1
    · exact b2
    · exact b3

end Width

structure Bus (σ ε π : Type) where
  load : (w : Width) → Nat → Exec σ ε π w.Value
  store : (w : Width) → Nat → w.Value → Exec σ ε π Unit

def Width.address (w : Width) (p i : Nat) : Nat := (p + w.size * i) % 2^32

namespace Bus
variable (bus : Bus σ ε π)

def copyCell (w : Width) (dst src i : Nat) : Exec σ ε π Unit := do
  bus.store w (w.address dst i) (← bus.load w (w.address src i))

/-- `for (i=0; i<count; i++) d[i] = s[i];` -/
def copyUp (w : Width) (dst src count : Nat) : Exec σ ε π Unit :=
  loop (fun i _ => bus.copyCell w dst src i) count 0 ()

/-- `for (i=count; i>0; i--) d[i-1] = s[i-1];` -/
def copyDown (w : Width) (dst src : Nat) : Nat → Exec σ ε π Unit
  | 0 => pure ()
  | i + 1 => do
    bus.copyCell w dst src i
    copyDown w dst src i

/-- Both pointers and the length are multiples of `sizeof(long)`. -/
def Aligned (dst src len : Nat) : Prop := dst % 4 = 0 ∧ src % 4 = 0 ∧ len % 4 = 0

instance (dst src len : Nat) : Decidable (Aligned dst src len) :=
  inferInstanceAs (Decidable (_ ∧ _ ∧ _))

theorem Aligned.whole {dst src len : Nat} (aligned : Aligned dst src len) :
    Width.word.size * (len / 4) = len :=
  Nat.mul_div_cancel' (Nat.dvd_of_mod_eq_zero aligned.2.2)

def memcpy (dst src len : Nat) : Exec σ ε π Nat := do
  if Aligned dst src len then bus.copyUp .word dst src (len / 4)
  else bus.copyUp .byte dst src len
  return dst

def memmove (dst src len : Nat) : Exec σ ε π Nat := do
  if dst < src then bus.memcpy dst src len
  else do
    if Aligned dst src len then bus.copyDown .word dst src (len / 4)
    else bus.copyDown .byte dst src len
    return dst

section Rules
variable {bus} {dst src len : Nat} {s : σ} {err : ε → σ → Prop} {halt : π → σ → Prop}

theorem wp_copyUp (w : Width) {count : Nat} (inv : Nat → σ → Prop) (start : inv 0 s)
    (cell : ∀ i t, i < count → inv (w.size * i) t →
      (bus.copyCell w dst src i).wp t (fun _ u => inv (w.size * (i + 1)) u) err halt) :
    (bus.copyUp w dst src count).wp s (fun _ t => inv (w.size * count) t) err halt :=
  wp_loop_zero (fun i _ t => inv (w.size * i) t) count () start fun i _ t => cell i t

/-- The rule for the loops that go down: `inv n` says that `n` bytes are still to be copied. -/
theorem wp_copyDown (w : Width) {count : Nat} (inv : Nat → σ → Prop) (start : inv (w.size * count) s)
    (cell : ∀ i t, i < count → inv (w.size * (i + 1)) t →
      (bus.copyCell w dst src i).wp t (fun _ u => inv (w.size * i) u) err halt) :
    (bus.copyDown w dst src count).wp s (fun _ t => inv 0 t) err halt := by
  induction count generalizing s with
  | zero => exact start
  | succ count ih =>
    rw [copyDown,wp_bind]
    apply wp_imp (cell count s (Nat.lt_succ_self count) start)
    exact fun _ t reached => ih reached fun i u less => cell i u (by omega)

/-- The rule for `memcpy`. In either unit the pointers are aligned and the range is covered. -/
theorem wp_memcpy (inv : Nat → σ → Prop) (start : inv 0 s)
    (cell : ∀ (w : Width) i t, dst % w.size = 0 → src % w.size = 0 → w.size * (i + 1) ≤ len →
      inv (w.size * i) t →
      (bus.copyCell w dst src i).wp t (fun _ u => inv (w.size * (i + 1)) u) err halt) :
    (bus.memcpy dst src len).wp s (fun r t => r = dst ∧ inv len t) err halt := by
  rw [memcpy]
  split
  · rename_i aligned
    have whole := aligned.whole
    obtain ⟨dst4,src4,_⟩ := aligned
    rw [wp_bind]
    apply wp_imp (wp_copyUp .word inv start fun i t less =>
      cell .word i t dst4 src4 (whole ▸ Nat.mul_le_mul_left _ less))
    exact fun _ t reached => ⟨rfl,whole ▸ reached⟩
  · have whole : Width.byte.size * len = len := Nat.one_mul len
    rw [wp_bind]
    apply wp_imp (wp_copyUp .byte inv start fun i t less =>
      cell .byte i t (Nat.mod_one dst) (Nat.mod_one src) (whole ▸ Nat.mul_le_mul_left _ less))
    exact fun _ t reached => ⟨rfl,whole ▸ reached⟩

theorem wp_memmove_down (above : ¬dst < src) (inv : Nat → σ → Prop) (start : inv len s)
    (cell : ∀ (w : Width) i t, dst % w.size = 0 → src % w.size = 0 → w.size * (i + 1) ≤ len →
      inv (w.size * (i + 1)) t →
      (bus.copyCell w dst src i).wp t (fun _ u => inv (w.size * i) u) err halt) :
    (bus.memmove dst src len).wp s (fun r t => r = dst ∧ inv 0 t) err halt := by
  rw [memmove,if_neg above]
  split
  · rename_i aligned
    have whole := aligned.whole
    obtain ⟨dst4,src4,_⟩ := aligned
    rw [wp_bind]
    apply wp_imp (wp_copyDown .word inv (by rw [whole]; exact start) fun i t less =>
      cell .word i t dst4 src4 (whole ▸ Nat.mul_le_mul_left _ less))
    exact fun _ t reached => ⟨rfl,reached⟩
  · have whole : Width.byte.size * len = len := Nat.one_mul len
    rw [wp_bind]
    apply wp_imp (wp_copyDown .byte inv (by rw [whole]; exact start) fun i t less =>
      cell .byte i t (Nat.mod_one dst) (Nat.mod_one src) (whole ▸ Nat.mul_le_mul_left _ less))
    exact fun _ t reached => ⟨rfl,reached⟩

end Rules

end Bus

/-! A memory of bytes -/

inductive AddressError where
  | unaligned
  deriving DecidableEq, Repr

/-- Every byte of memory can be accessed; words only where they are aligned. -/
def byteMemory : Bus (Nat → UInt8) Empty AddressError where
  load w a := do
    assert (a % w.size = 0) .unaligned
    return w.fetch (← read) a
  store w a value := do
    assert (a % w.size = 0) .unaligned
    modify fun mem => overwrite mem a (w.image value) w.size

section Memory
variable {mem : Nat → UInt8} {dst src len : Nat}

theorem Width.address_eq (w : Width) {p i : Nat} (fits : p + len ≤ 2^32) (inside : w.size * (i + 1) ≤ len) :
    w.address p i = p + w.size * i := by
  have := w.size_pos
  rw [Nat.mul_succ] at inside
  exact Nat.mod_eq_of_lt (by omega)

theorem Width.aligned_cell (w : Width) {p i : Nat} (aligned : p % w.size = 0) :
    (p + w.size * i) % w.size = 0 := by
  rw [Nat.add_mul_mod_self_left,aligned]

theorem copyCell_spec (w : Width) {i : Nat} (dstFits : dst + len ≤ 2^32) (srcFits : src + len ≤ 2^32)
    (dstAligned : dst % w.size = 0) (srcAligned : src % w.size = 0) (inside : w.size * (i + 1) ≤ len) :
    (byteMemory.copyCell w dst src i).wp mem
      (fun _ t => t = overwrite mem (dst + w.size * i) (fun j => mem (src + w.size * i + j)) w.size)
      never never := by
  rw [Bus.copyCell,w.address_eq dstFits inside,w.address_eq srcFits inside]
  simp only [byteMemory,wp_bind,wp_assert,w.aligned_cell dstAligned,
    w.aligned_cell srcAligned,decide_true,if_true,wp_read,wp_pure,wp_modify]
  funext a
  simp only [overwrite]
  split
  · exact w.image_fetch mem _ (by omega)
  · rfl

theorem overwrite_before (mem : Nat → UInt8) (start : Nat) (f : Nat → UInt8) (n m : Nat) :
    overwrite (overwrite mem (start + n) (fun j => f (n + j)) m) start f n = overwrite mem start f (n + m) := by
  funext a
  simp only [overwrite]
  by_cases front : start ≤ a ∧ a < start + n
  · rw [if_pos front,if_pos (by omega)]
  · rw [if_neg front]
    by_cases back : start + n ≤ a ∧ a < start + n + m
    · rw [if_pos back,if_pos (by omega),show n + (a - (start + n)) = a - start by omega]
    · rw [if_neg back,if_neg (by omega)]

theorem overwrite_outside (mem f : Nat → UInt8) {start n a : Nat} (outside : a < start ∨ start + n ≤ a) :
    overwrite mem start f n a = mem a := by
  simp only [overwrite]
  rw [if_neg (by omega)]

def copiedFront (mem : Nat → UInt8) (dst src n : Nat) : Nat → UInt8 :=
  overwrite mem dst (fun j => mem (src + j)) n

def copiedBack (mem : Nat → UInt8) (dst src len n : Nat) : Nat → UInt8 :=
  overwrite mem (dst + n) (fun j => mem (src + (n + j))) (len - n)

theorem copiedFront_cell (apart : dst ≤ src ∨ src + len ≤ dst) (w : Width) {i : Nat}
    (inside : w.size * (i + 1) ≤ len) :
    overwrite (copiedFront mem dst src (w.size * i)) (dst + w.size * i)
      (fun j => copiedFront mem dst src (w.size * i) (src + w.size * i + j)) w.size =
      copiedFront mem dst src (w.size * (i + 1)) := by
  rw [Nat.mul_succ] at inside
  rw [copiedFront,copiedFront,Nat.mul_succ,← overwrite_append]
  funext a
  simp only [overwrite.eq_1 (overwrite _ _ _ _)]
  split
  · rw [overwrite_outside _ _ (by omega),Nat.add_assoc]
  · rfl

theorem copyCell_front (dstFits : dst + len ≤ 2^32) (srcFits : src + len ≤ 2^32)
    (apart : dst ≤ src ∨ src + len ≤ dst) (w : Width) {i : Nat} (dstAligned : dst % w.size = 0)
    (srcAligned : src % w.size = 0) (inside : w.size * (i + 1) ≤ len) :
    (byteMemory.copyCell w dst src i).wp (copiedFront mem dst src (w.size * i))
      (fun _ t => t = copiedFront mem dst src (w.size * (i + 1))) never never := by
  apply wp_imp (copyCell_spec w dstFits srcFits dstAligned srcAligned inside)
  rintro _ t rfl
  exact copiedFront_cell apart w inside

theorem copyCell_back (dstFits : dst + len ≤ 2^32) (srcFits : src + len ≤ 2^32)
    (above : ¬dst < src) (w : Width) {i : Nat} (dstAligned : dst % w.size = 0)
    (srcAligned : src % w.size = 0) (inside : w.size * (i + 1) ≤ len) :
    (byteMemory.copyCell w dst src i).wp (copiedBack mem dst src len (w.size * (i + 1)))
      (fun _ t => t = copiedBack mem dst src len (w.size * i)) never never := by
  apply wp_imp (copyCell_spec w dstFits srcFits dstAligned srcAligned inside)
  rintro _ t rfl
  rw [Nat.mul_succ] at inside
  have rest : len - w.size * i = w.size + (len - (w.size * i + w.size)) := by omega
  rw [copiedBack,copiedBack,Nat.mul_succ,rest,← overwrite_before]
  funext a
  simp only [Nat.add_assoc]
  simp only [overwrite.eq_1 (overwrite _ _ _ _)]
  split
  · rw [overwrite_outside _ _ (by omega)]
  · rfl

theorem copiedBack_zero : copiedBack mem dst src len 0 = copiedFront mem dst src len := by
  simp only [copiedBack,copiedFront,Nat.add_zero,Nat.zero_add,Nat.sub_zero]

theorem copiedBack_len : copiedBack mem dst src len len = mem := by
  rw [copiedBack,Nat.sub_self,overwrite_none]

theorem loops_spec (mem : Nat → UInt8) (dstFits : dst + len ≤ 2^32) (srcFits : src + len ≤ 2^32) (w : Width)
    {count : Nat} (dstAligned : dst % w.size = 0) (srcAligned : src % w.size = 0)
    (whole : w.size * count = len) :
    (dst ≤ src → byteMemory.copyUp w dst src count mem = (.ok (), copiedFront mem dst src len)) ∧
    (¬dst < src → byteMemory.copyDown w dst src count mem = (.ok (), copiedFront mem dst src len)) := by
  have inside {i : Nat} (less : i < count) : w.size * (i + 1) ≤ len :=
    whole ▸ Nat.mul_le_mul_left _ less
  constructor
  · intro below
    have up : (byteMemory.copyUp w dst src count).wp mem _ never never :=
      Bus.wp_copyUp w (fun n t => t = copiedFront mem dst src n) (overwrite_none mem dst _).symm <| by
        rintro i t less rfl
        exact copyCell_front dstFits srcFits (.inl below) w dstAligned srcAligned (inside less)
    obtain ⟨_,t,ran,rfl⟩ := wp_returns up
    rw [ran,whole]
  · intro above
    have down : (byteMemory.copyDown w dst src count).wp mem _ never never :=
      Bus.wp_copyDown w (fun n t => t = copiedBack mem dst src len n)
        (by rw [whole,copiedBack_len]) <| by
        rintro i t less rfl
        exact copyCell_back dstFits srcFits above w dstAligned srcAligned (inside less)
    obtain ⟨_,t,ran,rfl⟩ := wp_returns down
    rw [ran,copiedBack_zero]

theorem memmove_spec (dstFits : dst + len ≤ 2^32) (srcFits : src + len ≤ 2^32) :
    (byteMemory.memmove dst src len).wp mem
      (fun r t => r = dst ∧ t = copiedFront mem dst src len) never never := by
  by_cases below : dst < src
  · rw [Bus.memmove,if_pos below]
    apply Bus.wp_memcpy (fun n t => t = copiedFront mem dst src n) (overwrite_none mem dst _).symm
    rintro w i t dstAligned srcAligned inside rfl
    exact copyCell_front dstFits srcFits (.inl (Nat.le_of_lt below)) w dstAligned srcAligned inside
  · rw [← copiedBack_zero]
    apply Bus.wp_memmove_down below (fun n t => t = copiedBack mem dst src len n) copiedBack_len.symm
    rintro w i t dstAligned srcAligned inside rfl
    exact copyCell_back dstFits srcFits below w dstAligned srcAligned inside

/-- `memmove` is a simultaneous copy, however the ranges overlap and are aligned, and its loops over
words leave the memory that its loops over bytes would. -/
theorem memmove_simultaneous (mem : Nat → UInt8) (dst src len : Nat) (dstFits : dst + len ≤ 2^32)
    (srcFits : src + len ≤ 2^32) :
    (byteMemory.memmove dst src len).wp mem
      (fun r t => r = dst ∧ (∀ i < len, t (dst + i) = mem (src + i)) ∧
        ∀ a, (∀ i < len, a ≠ dst + i) → t a = mem a)
      (fun _ _ => False) (fun _ _ => False) ∧
    (Bus.Aligned dst src len →
      (dst < src → byteMemory.copyUp .word dst src (len / 4) mem = byteMemory.copyUp .byte dst src len mem) ∧
      (¬dst < src →
        byteMemory.copyDown .word dst src (len / 4) mem = byteMemory.copyDown .byte dst src len mem)) := by
  constructor
  · apply wp_imp (memmove_spec dstFits srcFits)
    rintro r t ⟨rfl,rfl⟩
    refine ⟨rfl,?_,?_⟩
    · intro i less
      simp only [copiedFront,overwrite]
      rw [if_pos (by omega),Nat.add_sub_cancel_left]
    · intro a outside
      apply overwrite_outside
      by_contra inside
      exact outside (a - r) (by omega) (by omega)
  · intro aligned
    have words := loops_spec mem dstFits srcFits .word aligned.1 aligned.2.1 aligned.whole
    have bytes := loops_spec mem dstFits srcFits .byte (Nat.mod_one dst) (Nat.mod_one src)
      (Nat.one_mul len)
    constructor
    · intro below
      rw [words.1 (Nat.le_of_lt below),bytes.1 (Nat.le_of_lt below)]
    · intro above
      rw [words.2 above,bytes.2 above]

/-- Eight bytes move up by four, in words, over half of themselves. -/
theorem memmove_simultaneous_up_four :
    (∀ i < 8, (byteMemory.memmove 16 12 8 fun a => UInt8.ofNat a).2 (16 + i) = UInt8.ofNat (12 + i)) ∧
    byteMemory.copyDown .word 16 12 2 (fun a => UInt8.ofNat a) =
      byteMemory.copyDown .byte 16 12 8 fun a => UInt8.ofNat a := by
  have whole := memmove_simultaneous (fun a => UInt8.ofNat a) 16 12 8 (by decide) (by decide)
  obtain ⟨_,t,ran,_,copied,_⟩ := wp_returns whole.1
  rw [ran]
  exact ⟨copied,(whole.2 (by decide)).2 (by decide)⟩

end Memory

end Os161
