import Mathlib.Data.List.Nodup
import Mathlib.Data.List.Perm.Basic
import Mathlib.Data.List.Count

/-! Numbered objects that are made in order, are each in one place of a list, and are
discarded at the end. What a system does to such a list is a permutation, a birth, or the
removal of a part. Nothing here mentions a particular system. -/
namespace Os161

/-- The list `present` holds exactly the objects below `born` that are not `gone`, each of
them once. -/
structure Census (present : List Nat) (born : Nat) (gone : List Nat) : Prop where
  nodup : present.Nodup
  mem_iff : ∀ t, t ∈ present ↔ t < born ∧ t ∉ gone
  gone_lt : ∀ t ∈ gone, t < born

namespace Census

variable {present other : List Nat} {born : Nat} {gone : List Nat}

theorem perm (census : Census present born gone) (moved : other.Perm present) :
    Census other born gone :=
  ⟨moved.nodup_iff.mpr census.nodup,fun t => moved.mem_iff.trans (census.mem_iff t),census.gone_lt⟩

theorem unborn (census : Census present born gone) : born ∉ present := fun mem =>
  Nat.lt_irrefl _ ((census.mem_iff born).mp mem).1

theorem birth (census : Census present born gone) : Census (born :: present) (born + 1) gone := by
  refine ⟨List.nodup_cons.mpr ⟨census.unborn,census.nodup⟩,fun t => ?_,fun t mem => ?_⟩
  · rw [List.mem_cons,census.mem_iff]
    constructor
    · rintro (rfl | ⟨less,here⟩)
      · exact ⟨Nat.lt_succ_self _,fun mem => Nat.lt_irrefl _ (census.gone_lt _ mem)⟩
      · exact ⟨Nat.lt_succ_of_lt less,here⟩
    · rintro ⟨less,here⟩
      rcases Nat.lt_succ_iff_lt_or_eq.mp less with below | same
      · exact Or.inr ⟨below,here⟩
      · exact Or.inl same
  · exact Nat.lt_succ_of_lt (census.gone_lt t mem)

theorem bury {dead : List Nat} (census : Census (present ++ dead) born gone) :
    Census present born (dead.reverse ++ gone) := by
  have apart := List.nodup_append.mp census.nodup
  refine ⟨apart.1,fun t => ?_,fun t mem => ?_⟩
  · rw [List.mem_append,List.mem_reverse,not_or]
    constructor
    · intro mem
      obtain ⟨less,here⟩ := (census.mem_iff t).mp (List.mem_append_left _ mem)
      exact ⟨less,fun inDead => apart.2.2 t mem t inDead rfl,here⟩
    · rintro ⟨less,notDead,here⟩
      exact (List.mem_append.mp ((census.mem_iff t).mpr ⟨less,here⟩)).resolve_right notDead
  · rcases List.mem_append.mp mem with inDead | already
    · exact ((census.mem_iff t).mp (List.mem_append_right _ (List.mem_reverse.mp inDead))).1
    · exact census.gone_lt t already

theorem count (census : Census present born gone) (t : Nat) :
    present.count t = if t < born ∧ t ∉ gone then 1 else 0 := by
  rw [List.Nodup.count census.nodup]
  exact if_congr (census.mem_iff t) rfl rfl

end Census
end Os161
