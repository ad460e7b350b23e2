import Mathlib.Algebra.BigOperators.Group.Finset.Basic
import Mathlib.Algebra.Order.BigOperators.Group.Finset
import Mathlib.Data.Fintype.BigOperators
import Mathlib.Logic.Relation

/-! Threads that take steps in turn: a weight of the local state added up over a finite
crowd of them, and the rules for what a run keeps and where it can be led. Nothing here
mentions a particular system. -/
namespace Os161

open Function

namespace Crowd
variable {ι α : Type} [Fintype ι]

/-- The weight of the local state, added up over the crowd. -/
def total (weight : α → Nat) (crowd : ι → α) : Nat := ∑ i, weight (crowd i)

theorem weight_le_total (weight : α → Nat) (crowd : ι → α) (i : ι) :
    weight (crowd i) ≤ total weight crowd :=
  Finset.single_le_sum (f := fun i => weight (crowd i)) (fun _ _ => Nat.zero_le _)
    (Finset.mem_univ i)

variable {weight : α → Nat} {crowd : ι → α}

theorem total_eq_zero :
    total weight crowd = 0 ↔ ∀ i, weight (crowd i) = 0 := by
  simp [total]

theorem exists_of_total_pos (some : 0 < total weight crowd) :
    ∃ i, 0 < weight (crowd i) := by
  by_contra none
  simp only [not_exists,Nat.not_lt,Nat.le_zero] at none
  exact Nat.lt_irrefl _ (total_eq_zero.mpr none ▸ some)

theorem total_eq_single {i : ι}
    (others : ∀ j, j ≠ i → weight (crowd j) = 0) : total weight crowd = weight (crowd i) :=
  Finset.sum_eq_single i (fun j _ apart => others j apart)
    fun absent => absurd (Finset.mem_univ i) absent

theorem total_mono {weight' : α → Nat} (crowd : ι → α) (le : ∀ a, weight a ≤ weight' a) :
    total weight crowd ≤ total weight' crowd := Finset.sum_le_sum fun i _ => le (crowd i)

theorem eq_of_total_le_one (one : total weight crowd ≤ 1)
    {i j : ι} (first : 0 < weight (crowd i)) (second : 0 < weight (crowd j)) : i = j := by
  classical
  by_contra apart
  have split := Finset.sum_erase_add Finset.univ (fun k => weight (crowd k)) (Finset.mem_univ i)
  have other : weight (crowd j) ≤ ∑ k ∈ Finset.univ.erase i, weight (crowd k) :=
    Finset.single_le_sum (f := fun k => weight (crowd k)) (fun _ _ => Nat.zero_le _)
      (Finset.mem_erase.mpr ⟨fun same => apart same.symm,Finset.mem_univ j⟩)
  simp only [total] at one
  omega

variable [DecidableEq ι]

theorem total_update (weight : α → Nat) (crowd : ι → α) (i : ι) (next : α) :
    total weight (update crowd i next) + weight (crowd i) =
      total weight crowd + weight next := by
  have updated := Finset.sum_update_of_mem (Finset.mem_univ i) (weight ∘ crowd) (weight next)
  have split := Finset.sum_erase_add Finset.univ (weight ∘ crowd) (Finset.mem_univ i)
  rw [← comp_update,Finset.sdiff_singleton_eq_erase] at updated
  simp only [total,comp_apply] at *
  omega

end Crowd

namespace Run
variable {σ : Type} {step : σ → σ → Prop}

theorem keeps {inv : σ → Prop} (kept : ∀ s t, inv s → step s t → inv t) {s t : σ}
    (run : Relation.ReflTransGen step s t) (start : inv s) : inv t := by
  induction run with
  | refl => exact start
  | tail _ last ih => exact kept _ _ ih last

/-- If every state of the invariant that is not yet a goal leads to a smaller one, a run
leads to a goal. -/
theorem descend {inv goal : σ → Prop} (size : σ → Nat)
    (smaller : ∀ s, inv s → ¬ goal s → ∃ t, Relation.ReflTransGen step s t ∧ inv t ∧ size t < size s)
    {s : σ} (start : inv s) : ∃ t, Relation.ReflTransGen step s t ∧ inv t ∧ goal t := by
  induction bound : size s using Nat.strong_induction_on generalizing s with
  | _ n ih =>
    by_cases reached : goal s
    · exact ⟨s,.refl,start,reached⟩
    · obtain ⟨t,run,kept,less⟩ := smaller s start reached
      obtain ⟨u,onward,kept',reached'⟩ := ih (size t) (bound ▸ less) kept rfl
      exact ⟨u,run.trans onward,kept',reached'⟩

end Run
end Os161
