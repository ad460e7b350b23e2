import Mathlib.Data.List.Nodup
import Mathlib.Logic.Function.Basic

/-! Singly linked lists over a table of next pointers: which list a base pointer heads, how
putting a node in front and unlinking one change it, and the pointer-to-pointer walk that
finds the place to unlink at. -/
namespace Os161

open Function

variable {ι : Type}

structure Links (ι : Type) where
  base : Option ι
  next : ι → Option ι

namespace Links

/-- Following the pointers from `head` visits exactly `nodes` and then ends. -/
inductive Heads (next : ι → Option ι) : Option ι → List ι → Prop
  | nil : Heads next none []
  | cons {node : ι} {nodes : List ι} (rest : Heads next (next node) nodes) :
      Heads next (some node) (node :: nodes)

def Lists (links : Links ι) (nodes : List ι) : Prop := Heads links.next links.base nodes

variable {next : ι → Option ι} {head : Option ι} {nodes : List ι}

theorem Heads.unique {nodes' : List ι}
    (first : Heads next head nodes) (second : Heads next head nodes') : nodes = nodes' := by
  induction first generalizing nodes' with
  | nil => cases second; rfl
  | cons rest ih =>
    cases second with
    | cons rest' => rw [ih rest']

variable {node : ι}

theorem Heads.from_mem
    (heads : Heads next head nodes) (member : node ∈ nodes) :
    ∃ suffix, Heads next (some node) suffix ∧ suffix.length ≤ nodes.length := by
  induction heads with
  | nil => cases member
  | @cons first nodes rest ih =>
    rcases List.mem_cons.1 member with rfl | later
    · exact ⟨_,.cons rest,Nat.le_refl _⟩
    · obtain ⟨suffix,listed,short⟩ := ih later
      exact ⟨suffix,listed,Nat.le_succ_of_le short⟩

theorem Heads.nodup
    (heads : Heads next head nodes) : nodes.Nodup := by
  induction heads with
  | nil => exact List.nodup_nil
  | @cons node nodes rest ih =>
    refine List.nodup_cons.2 ⟨fun again => ?_,ih⟩
    -- the node would head both the whole list and a shorter suffix of it
    obtain ⟨suffix,listed,short⟩ := rest.from_mem again
    have := congrArg List.length (listed.unique (.cons rest))
    simp only [List.length_cons] at this
    omega

theorem Heads.congr {next' : ι → Option ι}
    (heads : Heads next head nodes) (same : ∀ node ∈ nodes, next' node = next node) :
    Heads next' head nodes := by
  induction heads with
  | nil => exact .nil
  | cons rest ih =>
    refine .cons ?_
    rw [same _ (by simp)]
    exact ih fun node member => same node (List.mem_cons_of_mem _ member)

theorem heads_cons :
    Heads next head (node :: nodes) ↔ head = some node ∧ Heads next (next node) nodes := by
  constructor
  · intro heads
    cases heads with
    | cons rest => exact ⟨rfl,rest⟩
  · rintro ⟨rfl,rest⟩
    exact .cons rest

theorem Heads.snoc [DecidableEq ι] {first v : ι} {rest : List ι}
    (heads : Heads next (some first) (first :: rest)) (fresh : v ∉ first :: rest) :
    Heads (update (update next v none) (rest.getLastD first) (some v)) (some first)
      (first :: rest ++ [v]) := by
  rw [List.mem_cons,not_or] at fresh
  induction rest generalizing first with
  | nil =>
    refine .cons ?_
    rw [List.getLastD_nil,update_self]
    refine .cons ?_
    rw [update_of_ne fresh.1,update_self]
    exact .nil
  | cons second rest later =>
    rw [List.mem_cons,not_or] at fresh
    obtain ⟨-,onward⟩ := heads_cons.1 heads
    obtain ⟨link,-⟩ := heads_cons.1 onward
    have notLast : first ≠ rest.getLastD second := fun equal =>
      (List.nodup_cons.1 heads.nodup).1 (equal ▸ List.getLastD_mem_cons)
    refine .cons ?_
    rw [List.getLastD_cons,update_of_ne notLast,update_of_ne (Ne.symm fresh.1),link]
    rw [link] at onward
    exact later onward fresh.2

theorem Heads.head_eq
    (heads : Heads next head nodes) : head = nodes.head? := by
  cases heads <;> rfl

theorem Heads.eq_none
    (heads : Heads next head nodes) : head = none ↔ nodes = [] := by
  cases heads with
  | nil => simp
  | cons rest => simp

variable {links links' : Links ι}

theorem Lists.congr (lists : links.Lists nodes)
    (base : links'.base = links.base) (same : ∀ node ∈ nodes, links'.next node = links.next node) :
    links'.Lists nodes := by
  unfold Lists at lists ⊢
  rw [base]
  exact Heads.congr lists same

theorem Lists.push (lists : links.Lists nodes)
    (base : links'.base = some node) (link : links'.next node = links.base)
    (same : ∀ other ∈ nodes, links'.next other = links.next other) : links'.Lists (node :: nodes) := by
  unfold Lists at lists ⊢
  rw [base]
  refine .cons ?_
  rw [link]
  exact Heads.congr lists same

theorem Lists.pop
    (lists : links.Lists (node :: nodes)) (base : links'.base = links.next node)
    (same : ∀ other ∈ nodes, links'.next other = links.next other) : links'.Lists nodes := by
  unfold Lists at lists ⊢
  rw [base]
  exact (heads_cons.1 lists).2.congr same

theorem getLastD_append_cons (before after : List ι) (node default : ι) :
    (before ++ node :: after).getLastD default = after.getLastD node := by
  induction before generalizing default with
  | nil => exact List.getLastD_cons
  | cons first before ih => rw [List.cons_append,List.getLastD_cons,ih]

/-! The walk that unlinks -/

inductive Place (ι : Type) where
  | base
  | next (node : ι)
  deriving DecidableEq

def get (links : Links ι) : Place ι → Option ι
  | .base => links.base
  | .next node => links.next node

def set [DecidableEq ι] (links : Links ι) : Place ι → Option ι → Links ι
  | .base, target => { links with base := target }
  | .next node, target => { links with next := update links.next node target }

/-- `for (guy = &base; *guy; guy = &(*guy)->next) if (*guy == node) break;` The result is
the place that points at `node`, none if the list ends before it; no result at all if the
walk has not ended after `fuel` nodes. -/
def seek [DecidableEq ι] (links : Links ι) (node : ι) : Nat → Place ι → Option (Option (Place ι))
  | 0, _ => none
  | fuel + 1, guy =>
    match links.get guy with
    | none => some none
    | some here => if here = node then some (some guy) else seek links node fuel (.next here)

section Unlink
variable [DecidableEq ι] {links : Links ι} {node : ι}

theorem seek_next {fuel : Nat} {here : ι} {nodes : List ι} (heads : Heads links.next (some here) nodes)
    (member : node ∈ nodes) (other : node ≠ here) (enough : nodes.length ≤ fuel) :
    ∃ before, seek links node fuel (.next here) = some (some (.next before)) ∧ before ∈ nodes ∧
      Heads (update links.next before (links.next node)) (some here) (nodes.erase node) := by
  induction fuel generalizing here nodes with
  | zero =>
    cases heads with
    | cons rest => simp at enough
  | succ fuel ih =>
    cases heads with
    | @cons _ nodes rest =>
      have later : node ∈ nodes := (List.mem_cons.1 member).resolve_left other
      have outside := (List.nodup_cons.1 (Heads.cons rest).nodup).1
      rw [seek,get,List.erase_cons_tail (by simpa using other.symm)]
      rcases step : links.next here with _ | second
      · rw [step] at rest
        cases rest
        cases later
      · rw [step] at rest
        dsimp only
        split
        · next found =>
          subst found
          refine ⟨here,rfl,by simp,?_⟩
          cases rest with
          | @cons _ nodes rest =>
            rw [List.erase_cons_head]
            refine .cons ?_
            rw [update_self]
            refine rest.congr fun x inside => update_of_ne ?_ _ _
            rintro rfl
            exact outside (List.mem_cons_of_mem _ inside)
        · next notYet =>
          obtain ⟨before,found,inside,unlinked⟩ := ih rest later (Ne.symm notYet)
            (by simpa using enough)
          refine ⟨before,found,List.mem_cons_of_mem _ inside,.cons ?_⟩
          have differ : here ≠ before := by
            rintro rfl
            exact outside inside
          rwa [update_of_ne differ,step]

theorem Lists.unlink {nodes : List ι} (lists : links.Lists nodes) (member : node ∈ nodes) {fuel : Nat}
    (enough : nodes.length < fuel) :
    ∃ guy, seek links node fuel .base = some (some guy) ∧
      (links.set guy (links.next node)).Lists (nodes.erase node) ∧
      (∀ before, guy = .next before → before ∈ nodes) := by
  unfold Lists at lists
  obtain ⟨fuel,rfl⟩ : ∃ n, fuel = n + 1 := ⟨fuel - 1,by omega⟩
  rcases base : links.base with _ | first
  · rw [base] at lists
    cases lists
    cases member
  · rw [base] at lists
    rw [seek,get,base]
    dsimp only
    split
    · next found =>
      subst found
      refine ⟨.base,rfl,?_,fun _ h => nomatch h⟩
      cases lists with
      | cons rest =>
        rw [List.erase_cons_head]
        exact rest
    · next notYet =>
      obtain ⟨before,found,inside,unlinked⟩ := seek_next lists member (Ne.symm notYet) (Nat.le_of_lt_succ enough)
      refine ⟨.next before,found,?_,?_⟩
      · simpa only [Lists,set,base] using unlinked
      · rintro _ ⟨⟩
        exact inside

end Unlink

end Links
end Os161
