import Mathlib.Data.List.Perm.Subperm
import Mathlib.Tactic.IntervalCases
import Os161.Kheap

/-! What holds of the heap between calls: the two kinds of page list, the free list of each
page, and the blocks that are live. -/
namespace Os161

/-! Sizes -/

variable {b : Nat}

theorem sizes_cases (type : b < nsizes) :
    sizes b = 16 ∨ sizes b = 32 ∨ sizes b = 64 ∨ sizes b = 128 ∨ sizes b = 256 ∨ sizes b = 512 ∨
      sizes b = 1024 ∨ sizes b = 2048 := by
  unfold nsizes at type
  interval_cases b <;> decide

theorem sizes_pos (type : b < nsizes) : 0 < sizes b := by
  have := sizes_cases type
  omega

theorem Pageref.size_pos {pr : Pageref} (type : pr.blocktype < nsizes) : 0 < pr.size := sizes_pos type

theorem blocks_fill (type : b < nsizes) : 4096 / sizes b * sizes b = 4096 := by
  rcases sizes_cases type with h | h | h | h | h | h | h | h <;> rw [h]

theorem two_le_blocks (type : b < nsizes) : 2 ≤ 4096 / sizes b ∧ 4096 / sizes b ≤ 256 := by
  rcases sizes_cases type with h | h | h | h | h | h | h | h <;> rw [h] <;> decide

theorem sixteen_dvd_sizes (type : b < nsizes) : 16 ∣ sizes b := by
  rcases sizes_cases type with h | h | h | h | h | h | h | h <;> rw [h] <;> decide

def blocktypeOf (sz : Nat) : Nat := sizesTable.findIdx (sz ≤ ·)

variable {sz : Nat}

theorem blocktypeOf_lt (small : sz ≤ 2048) : blocktypeOf sz < nsizes :=
  List.findIdx_lt_length_of_exists ⟨2048,by decide,by simpa using small⟩

theorem le_sizes_blocktypeOf (small : sz ≤ 2048) : sz ≤ sizes (blocktypeOf sz) := by
  have found := blocktypeOf_lt small
  have here := List.findIdx_getElem (p := fun size => decide (sz ≤ size)) (w := found)
  rw [sizes,List.getD_eq_getElem _ _ found]
  exact of_decide_eq_true here

theorem blocktype_spec {h : Heap} (small : sz ≤ 2048) :
    (blocktype sz).wp h (fun b h' => b = blocktypeOf sz ∧ h' = h) never never := by
  have rest : ∀ count i, i + count = nsizes → i ≤ blocktypeOf sz →
      (blocktypeFrom sz count i).wp h (fun b h' => b = blocktypeOf sz ∧ h' = h) never never := by
    intro count
    induction count with
    | zero =>
      intro i whole low
      have := blocktypeOf_lt small
      omega
    | succ count ih =>
      intro i whole low
      have inside : i < sizesTable.length := by
        change i < nsizes
        omega
      rw [blocktypeFrom,wp_ite]
      constructor
      · intro fits
        refine ⟨?_,rfl⟩
        rcases Nat.eq_or_lt_of_le low with same | less
        · exact same
        · have missed := List.not_of_lt_findIdx less
          rw [sizes,List.getD_eq_getElem _ _ inside] at fits
          simp [fits] at missed
      · intro tooSmall
        refine ih (i + 1) (by omega) (Nat.lt_of_le_of_ne low fun same => tooSmall ?_)
        rw [same]
        exact le_sizes_blocktypeOf small
  exact rest nsizes 0 (Nat.zero_add _) (Nat.zero_le _)

/-! Addresses -/

/-- A whole page of the directly mapped segment, where `alloc_kpages` takes its answers. -/
structure KernelPages (page bytes : Nat) : Prop where
  aligned : page % 4096 = 0
  low : 0x80000000 ≤ page
  high : page + bytes ≤ 0xa0000000

theorem add32_eq {a : Nat} (small : a + b < 2^32) : add32 a b = a + b := Nat.mod_eq_of_lt small

theorem sub32_eq {a : Nat} (low : b ≤ a) (small : a < 2^32) : sub32 a b = a - b := by
  rw [sub32,show a + 2^32 - b = a - b + 2^32 by omega,Nat.add_mod_right]
  exact Nat.mod_eq_of_lt (by omega)

theorem mkpab_pageaddr {page : Nat} (aligned : page % 4096 = 0) (type : b < nsizes) :
    mkpab page b / 4096 * 4096 = page ∧ mkpab page b % 4096 = b := by
  unfold mkpab nsizes at *
  omega

namespace Heap

section Slots
variable {h : Heap} {j : Nat}

def Slot (h : Heap) (j a : Nat) : Prop :=
  ∃ m, m < 4096 / (h.pagerefs j).size ∧ a = (h.pagerefs j).pageaddr + m * (h.pagerefs j).size

def slots (h : Heap) (j : Nat) : List Nat :=
  (List.range (4096 / (h.pagerefs j).size)).map fun m =>
    (h.pagerefs j).pageaddr + m * (h.pagerefs j).size

variable {a : Nat}

theorem mem_slots : a ∈ h.slots j ↔ h.Slot j a := by
  simp [slots,Slot,eq_comm]

theorem length_slots : (h.slots j).length = 4096 / (h.pagerefs j).size := by simp [slots]

theorem Slot.inside (slot : h.Slot j a) (type : (h.pagerefs j).blocktype < nsizes) :
    (h.pagerefs j).pageaddr ≤ a ∧ a + (h.pagerefs j).size ≤ (h.pagerefs j).pageaddr + 4096 := by
  obtain ⟨m,less,rfl⟩ := slot
  have fill := blocks_fill type
  have : (m + 1) * (h.pagerefs j).size ≤ 4096 / (h.pagerefs j).size * (h.pagerefs j).size :=
    Nat.mul_le_mul_right _ less
  rw [Nat.add_mul,one_mul] at this
  unfold Pageref.size at *
  omega

theorem Slot.offset (slot : h.Slot j a) :
    (a - (h.pagerefs j).pageaddr) % (h.pagerefs j).size = 0 := by
  obtain ⟨m,_,rfl⟩ := slot
  rw [Nat.add_sub_cancel_left,Nat.mul_mod_left]

theorem Slot.apart {b : Nat} (first : h.Slot j a) (second : h.Slot j b) (differ : a ≠ b) :
    a + (h.pagerefs j).size ≤ b ∨ b + (h.pagerefs j).size ≤ a := by
  obtain ⟨m,_,rfl⟩ := first
  obtain ⟨n,_,rfl⟩ := second
  rcases Nat.lt_trichotomy m n with less | rfl | greater
  · have := Nat.mul_le_mul_right (h.pagerefs j).size less
    rw [Nat.succ_mul] at this
    omega
  · exact absurd rfl differ
  · have := Nat.mul_le_mul_right (h.pagerefs j).size greater
    rw [Nat.succ_mul] at this
    omega

theorem slots_subperm {addresses : List Nat} (nodup : addresses.Nodup)
    (inside : ∀ a ∈ addresses, h.Slot j a) : addresses.Subperm (h.slots j) :=
  List.subperm_of_subset nodup fun a member => mem_slots.2 (inside a member)

end Slots

/-! The invariant -/

def Inuse (h : Heap) (j : Nat) : Prop := j < npagerefs ∧ (h.pagerefsInuse (j / 32)).getLsbD (j % 32) = true

/-- The page lists: `all` and, by block type, `same`. -/
structure Pages (h : Heap) (all : List Nat) (same : Nat → List Nat) : Prop where
  listed : h.allLinks.Lists all
  typed : ∀ b, b < nsizes → (h.sameLinks b).Lists (same b)
  inuse : ∀ j, j ∈ all ↔ h.Inuse j
  types : ∀ b, b < nsizes → ∀ j, j ∈ same b ↔ j ∈ all ∧ (h.pagerefs j).blocktype = b
  type : ∀ j ∈ all, (h.pagerefs j).blocktype < nsizes
  page : ∀ j ∈ all, KernelPages (h.pagerefs j).pageaddr 4096
  apart : ∀ i ∈ all, ∀ j ∈ all, (h.pagerefs i).pageaddr = (h.pagerefs j).pageaddr → i = j

def linksOf (memory : Nat → Nat) (a : Nat) : Option Nat := if memory a = 0 then none else some (memory a)

theorem linksOf_congr {memory memory' : Nat → Nat} {a : Nat} (same : memory' a = memory a) :
    linksOf memory' a = linksOf memory a := by
  unfold linksOf
  rw [same]

def freeLinks (h : Heap) (j : Nat) : Links Nat where
  base := if (h.pagerefs j).freelistOffset = invalidOffset then none
    else some ((h.pagerefs j).pageaddr + (h.pagerefs j).freelistOffset)
  next := linksOf h.memory

structure FreeList (h : Heap) (j : Nat) (free : List Nat) : Prop where
  listed : (h.freeLinks j).Lists free
  count : free.length = (h.pagerefs j).nfree
  slot : ∀ a ∈ free, h.Slot j a

end Heap

/-- A block that `kmalloc(sz)` returned and that has not been freed. -/
structure Alloc where
  ptr : Nat
  sz : Nat
  deriving DecidableEq, Repr

def roomOf (sz : Nat) : Nat := if sz ≥ 2048 then inPages sz else sizes (blocktypeOf sz)

def Alloc.Apart (b c : Alloc) : Prop := b.ptr + roomOf b.sz ≤ c.ptr ∨ c.ptr + roomOf c.sz ≤ b.ptr

namespace Heap

structure Placed (h : Heap) (all : List Nat) (free : Nat → List Nat) (b : Alloc) : Prop where
  small : b.sz < 2048 → ∃ j ∈ all, (h.pagerefs j).blocktype = blocktypeOf b.sz ∧ h.Slot j b.ptr ∧
    b.ptr ∉ free j
  large : 2048 ≤ b.sz → KernelPages b.ptr (inPages b.sz) ∧ ∀ j ∈ all,
    b.ptr + inPages b.sz ≤ (h.pagerefs j).pageaddr ∨ (h.pagerefs j).pageaddr + 4096 ≤ b.ptr

structure Shape (h : Heap) (blocks : List Alloc) (all : List Nat) (same free : Nat → List Nat) :
    Prop where
  pages : h.Pages all same
  lists : ∀ j ∈ all, h.FreeList j (free j)
  placed : ∀ b ∈ blocks, h.Placed all free b
  disjoint : blocks.Pairwise Alloc.Apart

/-- The heap between calls: no page that is all free is kept. -/
structure Sound (h : Heap) (blocks : List Alloc) : Prop where
  shape : ∃ all same free, h.Shape blocks all same free ∧
    ∀ j ∈ all, (h.pagerefs j).nfree < 4096 / (h.pagerefs j).size

end Heap
end Os161
