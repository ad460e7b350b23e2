import Os161.Stoplight

/-! The messages of `asst1/stoplight.c`: which segment locks a vehicle holds while it prints,
and in what order the lines of different vehicles appear. A vehicle prints that it has entered
a segment while it holds the lock, and that it has left only after the release. -/
namespace Os161

open Function

namespace VehiclePc

def route : VehiclePc → List Segment
  | .acquire todo => todo
  | .enter g rest | .release g rest | .leave g rest => g :: rest
  | _ => []

def holds (needs : List Segment) : VehiclePc → List Segment
  | .acquire todo => needs.filter (· ∉ todo)
  | .wakeup | .turning => needs
  | .enter g rest | .release g rest => g :: rest
  | .leave _ rest => rest
  | _ => []

def ahead (needs : List Segment) : VehiclePc → List Segment
  | .enter g rest => g :: rest
  | .release _ rest | .leave _ rest => rest
  | .exited | .gone => []
  | _ => needs

def inside : VehiclePc → Option Segment
  | .release g _ | .leave g _ => some g
  | _ => none

variable {needs : List Segment}

theorem mem_holds_acquired {todo : List Segment} {g : Segment} :
    g ∈ (acquired todo).holds needs ↔ g ∈ needs ∧ g ∉ todo := by
  cases todo <;> simp [acquired,holds]

theorem route_acquired (todo : List Segment) : (acquired todo).route = todo := by
  cases todo <;> rfl

theorem holds_next (rest : List Segment) : (next rest).holds needs = rest := by
  cases rest <;> rfl

theorem route_next (rest : List Segment) : (next rest).route = rest := by
  cases rest <;> rfl

theorem ahead_next (rest : List Segment) : (next rest).ahead needs = rest := by
  cases rest <;> rfl

theorem inside_next (rest : List Segment) : (next rest).inside = none := by
  cases rest <;> rfl

end VehiclePc

def Line.vehicle {ι : Type} : Line ι → ι
  | .entered i _ => i
  | .left i _ => i

namespace Junction
variable {ι : Type}

structure Kept (cars : ι → Vehicle) (s : Junction ι) : Prop where
  route : ∀ i, (s.pc i).route <:+ (cars i).needs
  held : ∀ i g, g ∈ (s.pc i).holds (cars i).needs → s.holder g = some (.vehicle i)

namespace Kept
variable {cars : ι → Vehicle} {nvehicles : Nat} {s t : Junction ι}

theorem boot : Kept cars (Junction.boot : Junction ι) :=
  ⟨fun _ => List.nil_suffix,fun _ _ member => absurd member List.not_mem_nil⟩

theorem nodup (kept : Kept cars s) (i : ι) : (s.pc i).route.Nodup :=
  (cars i).needs_nodup.sublist (kept.route i).sublist

variable {i : ι}

theorem exclusive (kept : Kept cars s) {j : ι} {g : Segment}
    (first : g ∈ (s.pc i).holds (cars i).needs) (second : g ∈ (s.pc j).holds (cars j).needs) :
    i = j := by
  have same := (kept.held i g first).symm.trans (kept.held j g second)
  simpa using same

variable [DecidableEq ι]

theorem drive (kept : Kept cars s) {pc : VehiclePc}
    (pcs : t.pc = update s.pc i pc) (route : pc.route <:+ (cars i).needs)
    (own : ∀ g ∈ pc.holds (cars i).needs, t.holder g = some (.vehicle i))
    (others : ∀ j, j ≠ i → ∀ g, s.holder g = some (.vehicle j) → t.holder g = some (.vehicle j)) :
    Kept cars t := by
  constructor
  · rw [pcs,forall_update_iff s.pc fun j pc => pc.route <:+ (cars j).needs]
    exact ⟨route,fun j _ => kept.route j⟩
  · rw [pcs,forall_update_iff s.pc fun j pc => ∀ g ∈ pc.holds (cars j).needs,
      t.holder g = some (.vehicle j)]
    exact ⟨own,fun j other g member => others j other g (kept.held j g member)⟩

theorem move (kept : Kept cars s) {pc : VehiclePc} (holder : t.holder = s.holder)
    (pcs : t.pc = update s.pc i pc) (route : pc.route <:+ (cars i).needs)
    (fewer : pc.holds (cars i).needs ⊆ (s.pc i).holds (cars i).needs) : Kept cars t :=
  kept.drive pcs route (fun g member => by rw [holder]; exact kept.held i g (fewer member))
    (fun j _ g held => by rw [holder]; exact held)

theorem schedule (kept : Kept cars s) (step : Schedule cars nvehicles s t) : Kept cars t := by
  obtain awake | ⟨v,pos,here,rfl⟩ | ⟨pos,here,rfl⟩ := step.split
  · constructor
    · intro i
      rw [awake.pc]
      exact kept.route i
    · intro i g member
      rw [awake.pc] at member
      exact (awake.vehicles g i).2 (kept.held i g member)
  · by_cases asleep : s.pc v = .asleep
    · rw [wakeVehicle_asleep asleep]
      refine kept.move rfl rfl List.suffix_rfl fun g member => ?_
      simp [VehiclePc.holds] at member
    · rw [wakeVehicle_early asleep]
      exact ⟨kept.route,kept.held⟩
  · exact ⟨kept.route,kept.held⟩

theorem approach (kept : Kept cars s) (step : Approach cars i s t) : Kept cars t := by
  have route := kept.route i
  have nodup := kept.nodup i
  have held := kept.held i
  cases step with
  | produce _ | arrive _ | sleep _ | exit _ _ =>
    exact kept.move rfl rfl List.nil_suffix (List.nil_subset _)
  | wakeScheduler at_ =>
    exact kept.move rfl rfl List.nil_suffix (by rw [at_]; exact List.Subset.refl _)
  | acquire g todo at_ free =>
    rw [at_] at route held
    refine kept.drive rfl ?_ (fun g' member => ?_) (fun j _ g' other => ?_)
    · rw [VehiclePc.route_acquired]
      exact (List.suffix_cons g todo).trans route
    · rw [VehiclePc.mem_holds_acquired] at member
      by_cases same : g' = g
      · simp [setPc,setHolder,same]
      · simpa [setPc,setHolder,same] using
          held g' (by simp [VehiclePc.holds,member.1,member.2,same])
    · have apart : g' ≠ g := by
        rintro rfl
        simp [free] at other
      simpa [setPc,setHolder,apart] using other
  | turn at_ =>
    refine kept.move rfl rfl ?_ ?_
    · rw [VehiclePc.route_next]
    · rw [VehiclePc.holds_next,at_]
      exact List.Subset.refl _
  | enter g rest at_ =>
    rw [at_] at route
    exact kept.move rfl rfl route (by rw [at_]; exact List.Subset.refl _)
  | release g rest at_ =>
    rw [at_] at route nodup held
    refine kept.drive rfl route (fun g' member => ?_)
      (fun j other g' => (unlock_other g g' (by simpa using other.symm)).2)
    have apart : g' ≠ g := fun equal => (List.nodup_cons.1 nodup).1 (equal ▸ member)
    have before := held g' (List.mem_cons_of_mem g member)
    simpa [unlock,setPc,setHolder,apart] using before
  | leave g rest at_ =>
    rw [at_] at route
    refine kept.move rfl rfl ?_ ?_
    · rw [VehiclePc.route_next]
      exact (List.suffix_cons g rest).trans route
    · rw [VehiclePc.holds_next,at_]
      exact List.Subset.refl _

end Kept

/-! What a vehicle has printed -/

structure Told (needs : List Segment) (trace : List (Line ι)) (i : ι) (pc : VehiclePc) : Prop where
  ahead : ∀ g ∈ pc.ahead needs, .entered i g ∉ trace ∧ .left i g ∉ trace
  inside : ∀ g, pc.inside = some g → .entered i g ∈ trace ∧ .left i g ∉ trace
  done : ∀ g, .entered i g ∈ trace → .left i g ∈ trace ∨ pc.inside = some g

namespace Told
variable {needs : List Segment} {trace : List (Line ι)} {i : ι} {pc pc' : VehiclePc}

theorem silent (told : Told needs trace i pc) (ahead : pc'.ahead needs = pc.ahead needs)
    (inside : pc'.inside = pc.inside) : Told needs trace i pc' :=
  ⟨ahead ▸ told.ahead,inside ▸ told.inside,inside ▸ told.done⟩

theorem other (told : Told needs trace i pc) {line : Line ι} (different : line.vehicle ≠ i) :
    Told needs (trace ++ [line]) i pc := by
  have entered : ∀ g, .entered i g ≠ line := fun g equal => different (equal ▸ rfl)
  have left : ∀ g, .left i g ≠ line := fun g equal => different (equal ▸ rfl)
  constructor
  · simpa [entered,left] using told.ahead
  · simpa [entered,left] using told.inside
  · simpa [entered,left] using told.done

theorem enter {g : Segment} {rest : List Segment} (told : Told needs trace i (.enter g rest))
    (nodup : (g :: rest).Nodup) : Told needs (trace ++ [.entered i g]) i (.release g rest) := by
  have here := told.ahead g List.mem_cons_self
  refine ⟨fun g' member => ?_,fun g' at_ => ?_,fun g' before => ?_⟩
  · have apart : g' ≠ g := fun equal => (List.nodup_cons.1 nodup).1 (equal ▸ member)
    simpa [apart] using told.ahead g' (List.mem_cons_of_mem g member)
  · obtain rfl : g = g' := by simpa [VehiclePc.inside] using at_
    simpa using here.2
  · by_cases same : g' = g
    · exact .inr (by simp [VehiclePc.inside,same])
    · have earlier := told.done g' (by simpa [same] using before)
      exact .inl (by simpa [VehiclePc.inside] using earlier)

theorem leave {g : Segment} {rest : List Segment} (told : Told needs trace i (.leave g rest))
    (nodup : (g :: rest).Nodup) : Told needs (trace ++ [.left i g]) i (.next rest) := by
  refine ⟨fun g' member => ?_,fun g' at_ => ?_,fun g' before => .inl ?_⟩
  · rw [VehiclePc.ahead_next] at member
    have apart : g' ≠ g := fun equal => (List.nodup_cons.1 nodup).1 (equal ▸ member)
    simpa [apart] using told.ahead g' member
  · simp [VehiclePc.inside_next] at at_
  · have earlier := told.done g' (by simpa using before)
    simp only [VehiclePc.inside,Option.some.injEq] at earlier
    simpa [eq_comm] using earlier

end Told

def Reported (cars : ι → Vehicle) (s : Junction ι) : Prop :=
  ∀ i, Told (cars i).needs s.trace i (s.pc i)

namespace Reported
variable {cars : ι → Vehicle} {nvehicles : Nat} {s t : Junction ι}

theorem boot : Reported cars (Junction.boot : Junction ι) := fun _ =>
  ⟨fun _ _ => ⟨List.not_mem_nil,List.not_mem_nil⟩,fun _ at_ => by simp [Junction.boot,VehiclePc.inside] at at_,
    fun _ before => absurd before List.not_mem_nil⟩

variable [DecidableEq ι]

theorem silent (reported : Reported cars s) {i : ι} {pc : VehiclePc} (trace : t.trace = s.trace)
    (pcs : t.pc = update s.pc i pc)
    (ahead : pc.ahead (cars i).needs = (s.pc i).ahead (cars i).needs)
    (inside : pc.inside = (s.pc i).inside) : Reported cars t := by
  rw [Reported,trace,pcs,
    forall_update_iff s.pc fun j pc => Told (cars j).needs s.trace j pc]
  exact ⟨(reported i).silent ahead inside,fun j _ => reported j⟩

theorem aloud (reported : Reported cars s) (line : Line ι) {pc : VehiclePc}
    (trace : t.trace = s.trace ++ [line]) (pcs : t.pc = update s.pc line.vehicle pc)
    (own : Told (cars line.vehicle).needs (s.trace ++ [line]) line.vehicle pc) : Reported cars t := by
  rw [Reported,trace,pcs,
    forall_update_iff s.pc fun j pc => Told (cars j).needs (s.trace ++ [line]) j pc]
  exact ⟨own,fun j other => (reported j).other other.symm⟩

theorem schedule (reported : Reported cars s) (step : Schedule cars nvehicles s t) :
    Reported cars t := by
  obtain awake | ⟨v,pos,here,rfl⟩ | ⟨pos,here,rfl⟩ := step.split
  · intro i
    rw [awake.trace,awake.pc]
    exact reported i
  · by_cases asleep : s.pc v = .asleep
    · rw [wakeVehicle_asleep asleep]
      exact reported.silent rfl rfl (by rw [asleep]; rfl) (by rw [asleep]; rfl)
    · rw [wakeVehicle_early asleep]
      exact reported
  · exact reported

theorem approach (reported : Reported cars s) (kept : Kept cars s) {i : ι}
    (step : Approach cars i s t) : Reported cars t := by
  have told := reported i
  have nodup := kept.nodup i
  cases step with
  | produce at_ | arrive at_ | sleep at_ | wakeScheduler at_ | release _ _ at_ | exit at_ _ =>
    exact reported.silent rfl rfl (by rw [at_]; rfl) (by rw [at_]; rfl)
  | acquire g todo at_ _ =>
    exact reported.silent rfl rfl (by rw [at_]; cases todo <;> rfl) (by rw [at_]; cases todo <;> rfl)
  | turn at_ =>
    exact reported.silent rfl rfl (by rw [at_,VehiclePc.ahead_next]; rfl)
      (by rw [at_,VehiclePc.inside_next]; rfl)
  | enter g rest at_ =>
    rw [at_] at told nodup
    exact reported.aloud (.entered i g) rfl rfl (told.enter nodup)
  | leave g rest at_ =>
    rw [at_] at told nodup
    exact reported.aloud (.left i g) rfl rfl (told.leave nodup)

end Reported

theorem Schedule.trace [DecidableEq ι] {cars : ι → Vehicle} {nvehicles : Nat} {s t : Junction ι}
    (step : Schedule cars nvehicles s t) : t.trace = s.trace := by
  obtain awake | ⟨v,pos,-,rfl⟩ | ⟨pos,-,rfl⟩ := step.split
  · exact awake.trace
  · rfl
  · rfl

/-! Lines of different vehicles -/

/-- Between the two lines of a vehicle for a segment no other vehicle enters that segment. -/
def Exclusive (trace : List (Line ι)) : Prop :=
  ∀ i j g, i ≠ j → ¬ [Line.entered i g,.entered j g,.left i g].Sublist trace

def Followed (trace : List (Line ι)) : Prop :=
  ∀ i j g, i ≠ j → [Line.entered i g,.entered j g].Sublist trace → Line.left i g ∈ trace

variable {trace : List (Line ι)}

theorem sublist_concat {xs : List (Line ι)} {line : Line ι} (sub : xs.Sublist (trace ++ [line])) :
    xs.Sublist trace ∨ ∃ before, xs = before ++ [line] ∧ before.Sublist trace := by
  obtain ⟨before,last,rfl,early,late⟩ := List.sublist_append_iff.1 sub
  obtain rfl | rfl := List.sublist_singleton.1 late
  · exact .inl (by simpa using early)
  · exact .inr ⟨before,rfl,early⟩

theorem Exclusive.enter (exclusive : Exclusive trace) (j : ι) (g : Segment) :
    Exclusive (trace ++ [.entered j g]) := by
  intro a b h apart sub
  obtain old | ⟨before,equal,-⟩ := sublist_concat sub
  · exact exclusive a b h apart old
  · have last := congrArg List.getLast? equal
    simp at last

theorem Exclusive.leave (exclusive : Exclusive trace)
    (followed : Followed trace) {i : ι} {g : Segment} (still : Line.left i g ∉ trace) :
    Exclusive (trace ++ [.left i g]) := by
  intro a b h apart sub
  obtain old | ⟨before,equal,early⟩ := sublist_concat sub
  · exact exclusive a b h apart old
  · -- the vehicle that leaves has not been followed
    change [Line.entered a h,.entered b h] ++ [Line.left a h] = _ at equal
    obtain ⟨rfl,line⟩ := List.append_inj' equal rfl
    obtain ⟨rfl,rfl⟩ : a = i ∧ h = g := by simpa using line
    exact still (followed a b h apart early)

theorem Followed.enter (followed : Followed trace) {j : ι} {g : Segment}
    (alone : ∀ i, i ≠ j → Line.entered i g ∈ trace → Line.left i g ∈ trace) :
    Followed (trace ++ [.entered j g]) := by
  intro a b h apart sub
  refine List.mem_append_left _ ?_
  obtain old | ⟨before,equal,early⟩ := sublist_concat sub
  · exact followed a b h apart old
  · change [Line.entered a h] ++ [Line.entered b h] = _ at equal
    obtain ⟨rfl,line⟩ := List.append_inj' equal rfl
    obtain ⟨rfl,rfl⟩ : b = j ∧ h = g := by simpa using line
    exact alone a apart (List.singleton_sublist.1 early)

theorem Followed.leave (followed : Followed trace) (i : ι) (g : Segment) :
    Followed (trace ++ [.left i g]) := by
  intro a b h apart sub
  refine List.mem_append_left _ ?_
  obtain old | ⟨before,equal,-⟩ := sublist_concat sub
  · exact followed a b h apart old
  · have last := congrArg List.getLast? equal
    simp at last

section
variable [DecidableEq ι]

/-- A vehicle prints that it enters a segment before the vehicle that has released the lock
has printed that it left. -/
inductive Overlaps : Junction ι → Junction ι → Prop where
  | enter {s} (i j : ι) (g : Segment) (rest rest' : List Segment) : s.pc j = .enter g rest →
      i ≠ j → s.pc i = .leave g rest' →
      Overlaps s ((s.print (.entered j g)).setPc j (.release g rest))

/-- A step after which no two vehicles are between their lines for one segment. -/
def Tidy (cars : ι → Vehicle) (nvehicles : Nat) (s t : Junction ι) : Prop :=
  Step cars nvehicles s t ∧ ¬ Overlaps s t

structure Ordered (cars : ι → Vehicle) (s : Junction ι) : Prop where
  kept : Kept cars s
  reported : Reported cars s
  exclusive : Exclusive s.trace
  followed : Followed s.trace

namespace Ordered
variable {cars : ι → Vehicle} {nvehicles : Nat} {s t : Junction ι}

omit [DecidableEq ι] in
theorem boot : Ordered cars (Junction.boot : Junction ι) where
  kept := .boot
  reported := .boot
  exclusive _ _ _ _ sub := by simp [Junction.boot] at sub
  followed _ _ _ _ sub := by simp [Junction.boot] at sub

theorem schedule (ordered : Ordered cars s) (step : Schedule cars nvehicles s t) :
    Ordered cars t :=
  ⟨ordered.kept.schedule step,ordered.reported.schedule step,step.trace ▸ ordered.exclusive,
    step.trace ▸ ordered.followed⟩

omit [DecidableEq ι] in
theorem alone (ordered : Ordered cars s) {j : ι} {g : Segment} {rest : List Segment}
    (at_ : s.pc j = .enter g rest) (clear : ∀ i rest', i ≠ j → s.pc i ≠ .leave g rest')
    (i : ι) (apart : i ≠ j) (entered : Line.entered i g ∈ s.trace) : Line.left i g ∈ s.trace := by
  obtain left | inside := (ordered.reported i).done g entered
  · exact left
  have mine : g ∈ (s.pc j).holds (cars j).needs := by simp [at_,VehiclePc.holds]
  cases here : s.pc i with
  | release g' rest' =>
    obtain rfl : g' = g := by simpa [here,VehiclePc.inside] using inside
    exact absurd (ordered.kept.exclusive (by simp [here,VehiclePc.holds]) mine) apart
  | leave g' rest' =>
    obtain rfl : g' = g := by simpa [here,VehiclePc.inside] using inside
    exact absurd here (clear i rest' apart)
  | _ => simp [here,VehiclePc.inside] at inside

theorem approach (ordered : Ordered cars s) {i : ι} (step : Approach cars i s t)
    (tidy : ¬ Overlaps s t) : Ordered cars t := by
  have kept := ordered.kept.approach step
  have reported := ordered.reported.approach ordered.kept step
  cases step with
  | enter g rest at_ =>
    have clear : ∀ k rest', k ≠ i → s.pc k ≠ .leave g rest' := fun k rest' apart there =>
      tidy (.enter k i g rest rest' at_ apart there)
    exact ⟨kept,reported,ordered.exclusive.enter i g,ordered.followed.enter (ordered.alone at_ clear)⟩
  | leave g rest at_ =>
    have still := ((ordered.reported i).inside g (by rw [at_]; rfl)).2
    exact ⟨kept,reported,ordered.exclusive.leave ordered.followed still,ordered.followed.leave i g⟩
  | _ => exact ⟨kept,reported,ordered.exclusive,ordered.followed⟩

theorem step (ordered : Ordered cars s) (step : Tidy cars nvehicles s t) : Ordered cars t := by
  obtain ⟨step,tidy⟩ := step
  cases step with
  | schedule step => exact ordered.schedule step
  | approach i step => exact ordered.approach step tidy

end Ordered

variable {cars : ι → Vehicle} {nvehicles : Nat} {s t : Junction ι}

theorem Step.grows (step : Step cars nvehicles s t) : s.trace <+: t.trace := by
  cases step with
  | schedule step => rw [step.trace]
  | approach i step =>
    cases step with
    | enter g rest _ | leave g rest _ => exact List.prefix_append _ _
    | _ => exact List.prefix_rfl

end

end Junction
end Os161
