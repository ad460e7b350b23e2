import Mathlib.Data.Set.Insert
import Mathlib.Order.Bounds.Basic
import Os161.Bitmap
import Os161.Containers
import Os161.Simulation

/-! `lib/bitmap.c` as a set of numbers below `nbits`, from which the least missing one is handed
out. The bits that pad the last byte are set when the map is made and are never cleared, so the
search does not find one of them. -/
namespace Os161

/-- `kmalloc`, for a caller that tests for the null pointer. -/
def Kmem.kmalloc : Exec Kmem ε π Bool := do
  let m ← read
  put m.next
  return m.ready

namespace Bitmap

inductive CreateAssert where
  | words | overbits
  deriving DecidableEq, Repr

def bitmapCreate (nbits : Nat) : Exec Kmem Errno CreateAssert (Option Bitmap) := do
  let words := divRoundUp nbits 8
  let overbits := nbits - (words - 1) * 8
  if ← Kmem.kmalloc then
    if ← Kmem.kmalloc then
      -- the bytes are cleared, and the leftover bits at the end marked
      if nbits / 8 < words then
        assert (nbits / 8 = words - 1) .words
        assert (0 < overbits ∧ overbits < 8) .overbits
        pure (some (create nbits))
      else pure (some (create nbits))
    else pure none
  else pure none

def bitmapIsset (index : Nat) : Call Bitmap UInt8 := do
  let b ← read
  return b.v (index / 8) &&& mask (index % 8)

inductive Op where
  | alloc | mark (index : Nat) | unmark (index : Nat) | isset (index : Nat)

inductive Answer where
  | done | index (i : Nat) | bits (w : UInt8)

def Op.run : Op → Call Bitmap Answer
  | .alloc => do return .index (← Bitmap.alloc)
  | .mark index => do Bitmap.mark index; return .done
  | .unmark index => do Bitmap.unmark index; return .done
  | .isset index => do return .bits (← bitmapIsset index)

/-- Indices are below `nbits`, clear bits are marked and set ones unmarked. -/
def Op.Legal : Op → Bitmap → Prop
  | .alloc, _ => True
  | .mark index, b => index < b.nbits ∧ b.isset index = false
  | .unmark index, b => index < b.nbits ∧ b.isset index = true
  | .isset index, b => index < b.nbits

/-- The operations on sets of numbers below `nbits`. -/
def SetSpec (nbits : Nat) : Op → Set Nat → Except Errno Answer → Set Nat → Prop
  | .alloc, members, .ok (.index i), next =>
    IsLeast {j | j < nbits ∧ j ∉ members} i ∧ next = insert i members
  | .alloc, members, .error code, next => code = .enospc ∧ (∀ j < nbits, j ∈ members) ∧ next = members
  | .mark i, members, .ok .done, next => next = insert i members
  | .unmark i, members, .ok .done, next => next = members \ {i}
  | .isset i, members, .ok (.bits w), next => (w ≠ 0 ↔ i ∈ members) ∧ next = members
  | _, _, _, _ => False

/-- The map of `nbits` bits stands for a set of numbers below `nbits`. -/
structure Represents (nbits : Nat) (b : Bitmap) (members : Set Nat) : Prop where
  size : b.nbits = nbits
  padding : b.Sealed
  inside : ∀ i ∈ members, i < nbits
  bits : ∀ i < nbits, b.isset i = true ↔ i ∈ members

section Steps
variable {nbits : Nat} {b : Bitmap} {members : Set Nat} {i : Nat}

theorem Represents.clear_iff (rep : Represents nbits b members) (below : i < nbits) :
    b.isset i = false ↔ i ∉ members := by
  rw [← rep.bits i below,Bool.not_eq_true]

theorem Represents.set (rep : Represents nbits b members) (below : i < nbits) :
    Represents nbits (b.set i) (insert i members) where
  size := rep.size
  padding j past inByte := by
    rw [isset_set,rep.padding j past inByte,Bool.or_true]
  inside j member := by
    rcases member with rfl | old
    · exact below
    · exact rep.inside j old
  bits j belowJ := by
    rw [isset_set,Bool.or_eq_true,decide_eq_true_eq,rep.bits j belowJ,Set.mem_insert_iff]

theorem Represents.clear (rep : Represents nbits b members) (below : i < nbits) :
    Represents nbits (b.clear i) (members \ {i}) where
  size := rep.size
  padding j past inByte := by
    have apart : j ≠ i := by
      have size : (b.clear i).nbits = nbits := rep.size
      omega
    rw [isset_clear,rep.padding j past inByte,decide_eq_false apart]
    rfl
  inside j member := rep.inside j member.1
  bits j belowJ := by
    rw [isset_clear,Bool.and_eq_true,rep.bits j belowJ,Bool.not_eq_true',decide_eq_false_iff_not,
      and_comm,Set.mem_sdiff,Set.mem_singleton_iff]

theorem words_bounds (small : b.nbits + 8 < 2^32) : b.nbits ≤ b.words * 8 ∧ b.words * 8 < b.nbits + 8 := by
  rw [words,divRoundUp,Nat.mod_eq_of_lt (by omega)]
  omega

theorem alloc_simulates (small : nbits + 8 < 2^32) (rep : Represents nbits b members) :
    alloc.wp b
      (fun i t => IsLeast {j | j < nbits ∧ j ∉ members} i ∧ Represents nbits t (insert i members))
      (fun code t => code = .enospc ∧ (∀ j < nbits, j ∈ members) ∧ t = b) never := by
  have size := rep.size
  apply wp_ends (alloc_spec b rep.padding)
  · rintro i t ⟨below,unset,before,rfl⟩
    have below : i < nbits := size ▸ below
    refine ⟨⟨⟨below,(rep.clear_iff below).mp unset⟩,?_⟩,rep.set below⟩
    rintro j ⟨belowJ,missing⟩
    by_contra less
    exact missing ((rep.bits j belowJ).mp (before j (by omega)))
  · rintro code t ⟨rfl,rfl,full⟩
    refine ⟨rfl,fun j below => (rep.bits j below).mp (full j ?_),rfl⟩
    have := (words_bounds (by rwa [size])).1
    omega

theorem simulates_set (small : nbits + 8 < 2^32) :
    Simulates Op.run Op.Legal (SetSpec nbits) (Represents nbits) := by
  intro op b members rep legal
  cases op with
  | alloc =>
    simp only [Op.run,wp_bind,wp_pure]
    apply wp_ends (alloc_simulates small rep)
    · rintro i t ⟨least,repT⟩
      exact ⟨insert i members,⟨least,rfl⟩,repT⟩
    · rintro code t ⟨rfl,full,rfl⟩
      exact ⟨members,⟨rfl,full,rfl⟩,rep⟩
  | mark i =>
    obtain ⟨below,unset⟩ := legal
    simp only [Op.run,Bitmap.mark,wp_bind,wp_read,wp_assert,below,decide_true,if_true,
      unset,Bool.not_false,wp_put,wp_pure]
    exact ⟨insert i members,rfl,rep.set (rep.size ▸ below)⟩
  | unmark i =>
    obtain ⟨below,isSet⟩ := legal
    simp only [Op.run,wp_bind,wp_pure]
    apply wp_total (unmark_spec b below isSet)
    rintro _ t rfl
    exact ⟨members \ {i},rfl,rep.clear (rep.size ▸ below)⟩
  | isset i =>
    simp only [Op.run,bitmapIsset,wp_bind,wp_read,wp_pure]
    refine ⟨members,⟨?_,rfl⟩,rep⟩
    rw [← rep.bits i (rep.size ▸ legal),isset,bne_iff_ne]

end Steps

/-! The map that `bitmap_create` makes -/

theorem testBit_leftover (overbits count : Nat) (w : UInt8) (room : overbits + count ≤ 8) (o : Nat) :
    ((List.range' overbits count).foldl (fun w j => w ||| mask j) w).toNat.testBit o =
      (w.toNat.testBit o || decide (overbits ≤ o ∧ o < overbits + count)) := by
  induction count generalizing overbits w with
  | zero =>
    simp only [List.range'_zero,List.foldl_nil,Nat.add_zero]
    rw [decide_eq_false (by omega),Bool.or_false]
  | succ count ih =>
    rw [List.range'_succ,List.foldl_cons,ih (overbits + 1) _ (by omega),UInt8.toNat_or,
      Nat.testBit_or,mask_toNat (by omega),Nat.testBit_two_pow,Bool.or_assoc,← Bool.decide_or]
    congr 1
    rw [decide_eq_decide]
    omega

section Create
variable {nbits : Nat} (small : nbits + 8 < 2^32)
include small

theorem create_words : nbits ≤ divRoundUp nbits 8 * 8 ∧ divRoundUp nbits 8 * 8 < nbits + 8 :=
  words_bounds (b := create nbits) small

theorem isset_create (i : Nat) (inBytes : i < (create nbits).words * 8) :
    (create nbits).isset i = decide (nbits ≤ i) := by
  have bounds := create_words small
  have words : (create nbits).words = divRoundUp nbits 8 := rfl
  rw [words] at inBytes
  rw [isset_eq]
  simp only [create]
  generalize divRoundUp nbits 8 = n at *
  split
  · rename_i last
    rw [testBit_leftover _ _ _ (by omega),UInt8.toNat_zero,Nat.zero_testBit,Bool.false_or,
      decide_eq_decide]
    omega
  · rename_i inside
    rw [UInt8.toNat_zero,Nat.zero_testBit]
    exact (decide_eq_false (by omega)).symm

theorem create_represents : Represents nbits (create nbits) ∅ where
  size := rfl
  padding i past inByte := by
    rw [isset_create small i inByte]
    exact decide_eq_true past
  inside _ member := member.elim
  bits i below := by
    rw [isset_create small i (Nat.lt_of_lt_of_le below (create_words small).1),decide_eq_true_eq]
    exact ⟨fun h => absurd h (by omega),fun h => h.elim⟩

theorem bitmapCreate_spec (mem : Kmem) :
    (bitmapCreate nbits).wp mem
      (fun made _ => made = if mem.ready ∧ mem.next.ready then some (create nbits) else none)
      never never := by
  have bounds := create_words small
  simp only [bitmapCreate,Kmem.kmalloc,wp_bind,wp_read,wp_put,wp_pure,
    wp_ite,wp_assert]
  refine ⟨fun first => ⟨fun second => ⟨fun leftover => ?_,fun _ => ?_⟩,fun refused => ?_⟩,
    fun refused => ?_⟩
  · rw [if_pos (decide_eq_true (by omega)),if_pos (decide_eq_true (by omega)),if_pos ⟨first,second⟩]
  · rw [if_pos ⟨first,second⟩]
  · rw [if_neg fun h => refused h.2]
  · rw [if_neg fun h => refused h.1]

end Create

/-- The bitmap is a set of numbers below `nbits`, with first-fit allocation. -/
theorem bitmap_first_fit_set (nbits : Nat) (small : nbits < 2^32 - 8) (mem : Kmem) :
    (bitmapCreate nbits).wp mem
      (fun made _ => (mem.ready = true → mem.next.ready = true → made.isSome) ∧
        ∀ b ∈ made, Represents nbits b ∅ ∧ ∀ trace t, Calls Op.run Op.Legal b trace t →
          ∃ members, Admits (SetSpec nbits) ∅ trace members ∧ Represents nbits t members ∧
            ∀ op : Op, op.Legal t → ∃ answer u, op.run.attempt t = (.ok answer, u))
      (fun _ _ => False) (fun _ _ => False) := by
  have small : nbits + 8 < 2^32 := by omega
  have simulates := simulates_set small
  have start := create_represents small
  apply wp_imp (bitmapCreate_spec small mem)
  rintro made _ rfl
  constructor
  · intro first second
    rw [if_pos ⟨first,second⟩]
    rfl
  · intro b isMade
    obtain rfl : create nbits = b := by
      split at isMade
      · exact Option.some.inj isMade
      · exact absurd isMade (Option.not_mem_none _)
    refine ⟨start,fun trace t calls => ?_⟩
    obtain ⟨members,admits,rep⟩ := simulates.calls calls start
    exact ⟨members,admits,rep,fun op legal => simulates.returns rep legal⟩

/-- Two bits are handed out, the first one is given back and handed out again. -/
def twoBits : List (Op × Except Errno Answer) :=
  [(.alloc,.ok (.index 0)),(.alloc,.ok (.index 1)),(.unmark 0,.ok .done),(.alloc,.ok (.index 0))]

theorem bitmap_first_fit_set_ten : ∃ members, Admits (SetSpec 10) ∅ twoBits members := by
  have made : bitmapCreate 10 ⟨fun _ => true,0⟩ = (.ok (some (create 10)), ⟨fun _ => true,2⟩) := rfl
  obtain ⟨-,holds⟩ := wp_ok (bitmap_first_fit_set 10 (by decide) ⟨fun _ => true,0⟩) made
  obtain ⟨-,runs⟩ := holds (create 10) rfl
  obtain ⟨members,admits,-⟩ := runs twoBits _ (.cons trivial rfl (.cons trivial rfl
    (.cons ⟨by decide,rfl⟩ rfl (.cons trivial rfl (.nil _)))))
  exact ⟨members,admits⟩

end Bitmap

end Os161
