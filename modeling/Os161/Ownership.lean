import Mathlib.Data.Set.Insert

/-! Exclusive ownership of resources that an allocator marks as used. Owners claim
resources; a resource that an operation has taken and not yet put anywhere, or has
taken away and not yet returned, is held. Nothing here is about disks. -/
namespace Os161

/-- Claims are exclusive and refer to used resources. If `strict`, every used resource is
accounted for; otherwise some may have been lost. -/
structure Owned (strict : Prop) (claim : ω → β → Prop) (held used : Set β) : Prop where
  unique : ∀ {a a' b}, claim a b → claim a' b → a = a'
  claimed : ∀ {a b}, claim a b → b ∈ used
  apart : ∀ {a b}, claim a b → b ∉ held
  holding : held ⊆ used
  tight : strict → ∀ b ∈ used, (∃ a, claim a b) ∨ b ∈ held

namespace Owned
variable {strict : Prop} {claim claim' : ω → β → Prop} {held used : Set β} {a : ω} {b : β}

theorem congr (owned : Owned strict claim held used) (same : ∀ x c, claim' x c ↔ claim x c) :
    Owned strict claim' held used := by
  have : claim' = claim := funext fun x => funext fun c => propext (same x c)
  rwa [this]

/-- Allocation: an unused resource is marked and held. -/
theorem take (owned : Owned strict claim held used) (fresh : b ∉ used) :
    Owned strict claim (insert b held) (insert b used) where
  unique := owned.unique
  claimed h := Or.inr (owned.claimed h)
  apart h := by
    rintro (rfl | heldB)
    · exact fresh (owned.claimed h)
    · exact owned.apart h heldB
  holding := Set.insert_subset_insert owned.holding
  tight s _ used := by
    rcases used with rfl | used
    · exact Or.inr (Set.mem_insert _ _)
    · exact (owned.tight s _ used).imp_right fun h => Or.inr h

/-- A held resource is put in the hands of an owner that had none. -/
theorem give (owned : Owned strict claim (insert b held) used) (outside : b ∉ held)
    (vacant : ∀ c, ¬claim a c) (gives : ∀ c, claim' a c ↔ c = b)
    (rest : ∀ x, x ≠ a → ∀ c, claim' x c ↔ claim x c) : Owned strict claim' held used := by
  have classify : ∀ {x c}, claim' x c → (x = a ∧ c = b) ∨ (claim x c ∧ c ≠ b) := by
    intro x c h
    by_cases eq : x = a
    · subst x
      exact Or.inl ⟨rfl,(gives c).mp h⟩
    · rw [rest x eq] at h
      exact Or.inr ⟨h,fun e => owned.apart h (by simp [e])⟩
  exact {
    unique := by
      intro x y c hx hy
      rcases classify hx with ⟨rfl,rfl⟩ | ⟨hx,ne⟩
      · rcases classify hy with ⟨rfl,-⟩ | ⟨-,ne⟩
        · rfl
        · exact absurd rfl ne
      · rcases classify hy with ⟨-,rfl⟩ | ⟨hy,-⟩
        · exact absurd rfl ne
        · exact owned.unique hx hy
    claimed := by
      intro x c h
      rcases classify h with ⟨-,rfl⟩ | ⟨h,-⟩
      · exact owned.holding (Set.mem_insert _ _)
      · exact owned.claimed h
    apart := by
      intro x c h inHeld
      rcases classify h with ⟨-,rfl⟩ | ⟨h,-⟩
      · exact outside inHeld
      · exact owned.apart h (Or.inr inHeld)
    holding := fun x h => owned.holding (Or.inr h)
    tight := by
      intro s x inUsed
      rcases owned.tight s x inUsed with ⟨y,hy⟩ | rfl | h
      · refine Or.inl ⟨y,(rest y ?_ x).mpr hy⟩
        rintro rfl
        exact vacant x hy
      · exact Or.inl ⟨a,(gives _).mpr rfl⟩
      · exact Or.inr h }

/-- The claims of some owners are taken away and held. -/
theorem seize (owned : Owned strict claim held used) (lose : Set ω)
    (gone : ∀ x ∈ lose, ∀ c, ¬claim' x c) (rest : ∀ x, x ∉ lose → ∀ c, claim' x c ↔ claim x c) :
    Owned strict claim' (held ∪ {c | ∃ x ∈ lose, claim x c}) used := by
  have classify : ∀ {x c}, claim' x c → x ∉ lose ∧ claim x c := by
    intro x c h
    by_cases mem : x ∈ lose
    · exact absurd h (gone x mem c)
    · exact ⟨mem,(rest x mem c).mp h⟩
  exact {
    unique := fun hx hy => owned.unique (classify hx).2 (classify hy).2
    claimed := fun h => owned.claimed (classify h).2
    apart := by
      rintro x c h (inHeld | ⟨y,mem,hy⟩)
      · exact owned.apart (classify h).2 inHeld
      · obtain rfl := owned.unique (classify h).2 hy
        exact (classify h).1 mem
    holding := by
      rintro c (inHeld | ⟨y,-,hy⟩)
      · exact owned.holding inHeld
      · exact owned.claimed hy
    tight := by
      intro s x inUsed
      rcases owned.tight s x inUsed with ⟨y,hy⟩ | h
      · by_cases mem : y ∈ lose
        · exact Or.inr (Or.inr ⟨y,mem,hy⟩)
        · exact Or.inl ⟨y,(rest y mem x).mpr hy⟩
      · exact Or.inr (Or.inl h) }

theorem drop (owned : Owned strict claim held used) (inHeld : b ∈ held) :
    Owned strict claim (held \ {b}) (used \ {b}) where
  unique := owned.unique
  claimed h := ⟨owned.claimed h,fun e => owned.apart h (e ▸ inHeld)⟩
  apart h := fun mem => owned.apart h mem.1
  holding := fun _ mem => ⟨owned.holding mem.1,mem.2⟩
  tight s _ inUsed := (owned.tight s _ inUsed.1).imp_right fun h => ⟨h,inUsed.2⟩

theorem lose (owned : Owned strict claim held used) (lax : ¬strict) : Owned strict claim ∅ used where
  unique := owned.unique
  claimed := owned.claimed
  apart _ := Set.notMem_empty _
  holding := Set.empty_subset _
  tight s := absurd s lax

end Owned
end Os161
