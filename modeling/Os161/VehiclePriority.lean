import Os161.VehicleZones

/-! Which vehicles the scheduler lets in: a search of one queue, and a pass over the queues of
ambulances, cars and trucks. Node locks are always available. -/
namespace Os161

open Function

namespace Lanes

/-! A scan of a list of vehicles -/

section Scan
variable {ι : Type} (cars : ι → Vehicle)

def segmentsLeft : (Segment → Bool) → List ι → Segment → Bool
  | iseg, [] => iseg
  | iseg, v :: rest =>
    if (cars v).serviceable iseg then segmentsLeft (without iseg (cars v).needs) rest
    else segmentsLeft iseg rest

theorem segmentsLeft_append (iseg : Segment → Bool) (xs ys : List ι) :
    segmentsLeft cars iseg (xs ++ ys) = segmentsLeft cars (segmentsLeft cars iseg xs) ys := by
  induction xs generalizing iseg with
  | nil => rfl
  | cons v rest ih =>
    rw [List.cons_append,segmentsLeft,segmentsLeft]
    split <;> exact ih _

theorem served_append (iseg : Segment → Bool) (xs ys : List ι) :
    served cars iseg (xs ++ ys) = served cars iseg xs ++ served cars (segmentsLeft cars iseg xs) ys := by
  induction xs generalizing iseg with
  | nil => rfl
  | cons v rest ih =>
    rw [List.cons_append,served,served,segmentsLeft]
    split
    · rw [ih,List.cons_append]
    · exact ih _

theorem served_sublist (iseg : Segment → Bool) (xs : List ι) : (served cars iseg xs).Sublist xs := by
  induction xs generalizing iseg with
  | nil => exact List.Sublist.slnil
  | cons v rest ih =>
    rw [served]
    split
    · exact (ih _).cons_cons v
    · exact (ih _).cons v

theorem of_segmentsLeft {iseg : Segment → Bool} {g : Segment}
    (held : segmentsLeft cars iseg xs g = true) : iseg g = true := by
  induction xs generalizing iseg with
  | nil => exact held
  | cons v rest ih =>
    rw [segmentsLeft] at held
    split at held
    · exact (Bool.and_eq_true_iff.mp (ih held)).1
    · exact ih held

theorem serviceable_mono {v : Vehicle} {fewer more : Segment → Bool}
    (less : ∀ g, fewer g = true → more g = true) (fits : v.serviceable fewer = true) :
    v.serviceable more = true := by
  unfold Vehicle.serviceable at fits ⊢
  rw [List.all_eq_true] at fits ⊢
  exact fun g needed => less g (fits g needed)

/-- A scan of `xs` that wakes `woken`, with the segments `held i` held when the vehicle at place `i`
is visited: it wakes a vehicle just if all its segments are held, and gives exactly those up. In the
end no vehicle that was passed by has all its segments held. -/
structure Scan [DecidableEq ι] (xs : List ι) (start finish : Segment → Bool) (woken : List ι)
    (held : Nat → Segment → Bool) : Prop where
  first : held 0 = start
  last : held xs.length = finish
  order : woken.Sublist xs
  wakes : ∀ i v, xs[i]? = some v → (v ∈ woken ↔ (cars v).serviceable (held i) = true)
  gives : ∀ i v, xs[i]? = some v →
    held (i + 1) = if v ∈ woken then without (held i) (cars v).needs else held i
  rest : ∀ v ∈ xs, v ∉ woken → (cars v).serviceable finish = false

variable [DecidableEq ι]

theorem scan_served (nodup : xs.Nodup) (iseg : Segment → Bool) :
    Scan cars xs iseg (segmentsLeft cars iseg xs) (served cars iseg xs)
      fun i => segmentsLeft cars iseg (xs.take i) := by
  have wakes : ∀ i v, xs[i]? = some v →
      (v ∈ served cars iseg xs ↔ (cars v).serviceable (segmentsLeft cars iseg (xs.take i)) = true) := by
    intro i v place
    obtain ⟨before,after,rfl,rfl⟩ : ∃ before after, xs = before ++ v :: after ∧ before.length = i := by
      obtain ⟨bound,same⟩ := List.getElem?_eq_some_iff.mp place
      refine ⟨xs.take i,xs.drop (i + 1),?_,List.length_take_of_le (Nat.le_of_lt bound)⟩
      rw [← same,← List.drop_eq_getElem_cons bound,List.take_append_drop]
    rw [List.nodup_middle,List.nodup_cons,List.mem_append,not_or] at nodup
    rw [List.take_left,served_append,served]
    split
    case isTrue fits => exact iff_of_true (List.mem_append_right _ List.mem_cons_self) fits
    case isFalse fits =>
      refine iff_of_false (fun member => ?_) fits
      rcases List.mem_append.mp member with earlier | later
      · exact nodup.1.1 (served_subset cars _ _ earlier)
      · exact nodup.1.2 (served_subset cars _ _ later)
  refine ⟨rfl,by rw [List.take_length],served_sublist cars iseg xs,wakes,?_,?_⟩
  · intro i v place
    rw [List.take_add_one,place,Option.toList_some,segmentsLeft_append,segmentsLeft,segmentsLeft,
      segmentsLeft]
    simp only [wakes i v place]
  · intro v member passed
    obtain ⟨i,place⟩ := List.mem_iff_getElem?.mp member
    rw [Bool.eq_false_iff]
    intro fits
    refine passed ((wakes i v place).mpr (serviceable_mono (fun g held => ?_) fits))
    rw [← List.take_append_drop i xs,segmentsLeft_append] at held
    exact of_segmentsLeft cars held

variable {cars} {xs : List ι} {start finish : Segment → Bool} {woken : List ι}
  {held : Nat → Segment → Bool}

theorem Scan.held_of_held (scan : Scan cars xs start finish woken held) {i : Nat} (within : i ≤ xs.length)
    {g : Segment} (here : held i g = true) : start g = true := by
  induction i with
  | zero =>
    rw [← scan.first]
    exact here
  | succ i earlier =>
    obtain ⟨v,place⟩ : ∃ v, xs[i]? = some v := ⟨_,List.getElem?_eq_getElem within⟩
    rw [scan.gives i v place] at here
    refine earlier (Nat.le_of_lt within) ?_
    split at here
    · exact (Bool.and_eq_true_iff.mp here).1
    · exact here

def NoneFits (cars : ι → Vehicle) (xs woken : List ι) (held : Segment → Bool) : Prop :=
  ∀ v ∈ xs, v ∉ woken → (cars v).serviceable held = false

omit [DecidableEq ι] in
theorem NoneFits.mono {more fewer : Segment → Bool} (none_ : NoneFits cars xs woken more)
    (less : ∀ g, fewer g = true → more g = true) : NoneFits cars xs woken fewer := by
  intro v member passed
  rw [Bool.eq_false_iff]
  exact fun fits => Bool.eq_false_iff.mp (none_ v member passed) (serviceable_mono less fits)

theorem NoneFits.scan {ys passed : List ι} (none_ : NoneFits cars ys passed start)
    (scan : Scan cars xs start finish woken held) {i : Nat} (within : i ≤ xs.length) :
    NoneFits cars ys passed (held i) :=
  none_.mono fun _ here => scan.held_of_held within here

end Scan

/-! The search of a queue -/

section Search
variable {ι κ : Type} [DecidableEq ι] [DecidableEq κ] (cars : ι → Vehicle) {s : Lanes ι κ} {q : κ}

theorem wp_searchTurn_available {current : ι} {ok : Option ι → Lanes ι κ → Prop}
    {err : StoplightError → Lanes ι κ → Prop} {halt : StoplightHang → Lanes ι κ → Prop} :
    (searchTurnWith lockAvailable cars q current).wp s ok err halt ↔
      ok (s.next current) (if (cars current).serviceable s.iseg then
        (serviced cars s q current).setHeld (s.lock current) false
        else s.setHeld (s.lock current) true) := by
  cases fits : (cars current).serviceable s.iseg with
  | false => simp [searchTurnWith,fits]
  | true =>
    simp only [searchTurnWith,wp_bind,wp_read,wp_lockAvailable,fits,if_true,wp_pop,
      wp_lockRelease,wp_modify,wp_pure,serviced,popped,setHeld,releaseIseg,
      update_idem]

theorem searchLoop_scans {rest : List ι} {current : Option ι} {fuel : Nat}
    (here : Links.Heads s.next current rest) (outside : s.head q ∉ rest) (enough : rest.length ≤ fuel) :
    (searchLoopWith lockAvailable cars q fuel current).wp s
      (fun _ t => t.woken = s.woken ++ served cars s.iseg rest ∧ t.iseg = segmentsLeft cars s.iseg rest ∧
        Elsewhere s t (s.head q :: rest) [q]) never never := by
  induction rest generalizing s current fuel with
  | nil =>
    cases here
    rw [searchLoopWith,wp_pure]
    exact ⟨(List.append_nil _).symm,rfl,fun _ _ => rfl,rfl,fun _ _ => rfl⟩
  | cons v rest later =>
    obtain ⟨rfl,onward⟩ := Links.heads_cons.1 here
    obtain ⟨fuel,rfl⟩ : ∃ n, fuel = n + 1 := ⟨fuel - 1,by simp only [List.length_cons] at enough; omega⟩
    have notV := (List.nodup_cons.1 here.nodup).1
    rw [List.mem_cons,not_or] at outside
    rw [searchLoopWith,wp_bind,wp_searchTurn_available,served,segmentsLeft]
    have enough' : rest.length ≤ fuel := Nat.le_of_succ_le_succ enough
    cases fits : (cars v).serviceable s.iseg with
    | true =>
      rw [if_pos rfl,if_pos rfl,if_pos rfl]
      have next : ∀ x, x ≠ s.head q → x ≠ v →
          ((serviced cars s q v).setHeld (s.lock v) false).next x = s.next x := fun x notHead notV => (update_of_ne notV _ _).trans (update_of_ne notHead _ _)
      refine wp_imp (later (s := (serviced cars s q v).setHeld (s.lock v) false)
        (onward.congr fun x member => next x (fun equal => outside.2 (equal ▸ member))
          fun equal => notV (equal ▸ member)) outside.2 enough') ?_
      rintro _ t ⟨woken,iseg,elsewhere⟩
      refine ⟨woken.trans (List.append_assoc _ _ _),iseg,fun x out => ?_,elsewhere.head,fun r other => ?_⟩
      · simp only [List.mem_cons,not_or] at out
        refine (elsewhere.next x fun member => ?_).trans (next x out.1 out.2.1)
        exact (List.mem_cons.1 member).elim out.1 out.2.2
      · have notQ : r ≠ q := fun equal => other (equal ▸ List.mem_cons_self)
        exact (elsewhere.tail r other).trans (popped_tail notQ v)
    | false =>
      rw [if_neg Bool.false_ne_true,if_neg Bool.false_ne_true,if_neg Bool.false_ne_true]
      refine wp_imp (later (s := s.setHeld (s.lock v) true) onward outside.2 enough') ?_
      rintro _ t ⟨woken,iseg,elsewhere⟩
      refine ⟨woken,iseg,fun x out => elsewhere.next x fun member => out ?_,elsewhere.head,elsewhere.tail⟩
      exact List.cons_subset_cons _ (List.subset_cons_self v rest) member

theorem schedulerSearch_scans {xs : List ι} {fuel : Nat}
    (chain : Links.Heads s.next (some (s.head q)) (s.head q :: xs)) (enough : xs.length ≤ fuel) :
    (schedulerSearchWith lockAvailable cars fuel (some q)).wp s
      (fun _ t => ∃ woken held, t.woken = s.woken ++ woken ∧ Scan cars xs s.iseg t.iseg woken held ∧
        Elsewhere s t (s.head q :: xs) [q]) never never := by
  obtain ⟨-,first⟩ := Links.heads_cons.1 chain
  have outside := (List.nodup_cons.1 chain.nodup).1
  simp only [schedulerSearchWith,wp_bind,wp_read,wp_lockAvailable]
  refine wp_imp (searchLoop_scans cars (s := s.setHeld (s.lock (s.head q)) true) first outside enough)
    ?_
  rintro _ t ⟨woken,iseg,elsewhere⟩
  have scan := scan_served cars first.nodup s.iseg
  have finish : segmentsLeft cars s.iseg xs = t.iseg := iseg.symm
  rw [finish] at scan
  exact ⟨_,_,woken,scan,⟨elsewhere.next,elsewhere.head,elsewhere.tail⟩⟩

end Search

/-! A pass of the scheduler -/

section Pass
variable {ι : Type} [DecidableEq ι]

section Acquire
variable (acquire : Nat → Lane ι ZoneQueue Unit)

/-- `lock_try_acquire_alert` on a segment lock; `free` tells whether nobody holds it. -/
def lockTryAcquireAlert (free : Segment → Bool) (g : Segment) : Lane ι ZoneQueue Unit :=
  modify fun s => { s with iseg := update s.iseg g (s.iseg g || free g) }

/-- A pass of `Schedule_vehicles` up to the searches. -/
def beginPassWith (lock : VehicleType → Nat) (fuel : Nat) (free : Segment → Bool) :
    Lane ι ZoneQueue Unit := do
  let _ ← waitingZoneConsumeWith acquire lock fuel
  lockTryAcquireAlert free .AB
  lockTryAcquireAlert free .BC
  lockTryAcquireAlert free .CA

/-- The search of the scheduler's queue for one type. -/
def searchTypeWith (cars : ι → Vehicle) (lock : VehicleType → Nat) (fuel : Nat) (type : VehicleType) :
    Lane ι ZoneQueue Unit := do
  acquire (lock type)
  let _ ← attempt (schedulerSearchWith acquire cars fuel (some (.vehicleScheduler,type)))
  lockRelease (lock type)

def AllEmpty (s : Lanes ι ZoneQueue) : Prop :=
  s.size (.vehicleScheduler,.ambulance) = 0 ∧ s.size (.vehicleScheduler,.car) = 0 ∧
    s.size (.vehicleScheduler,.truck) = 0 ∧ s.size (.waitingZone,.ambulance) = 0 ∧
    s.size (.waitingZone,.car) = 0 ∧ s.size (.waitingZone,.truck) = 0

omit [DecidableEq ι] in
instance (s : Lanes ι ZoneQueue) : Decidable s.AllEmpty := inferInstanceAs (Decidable (_ ∧ _))

/-- One turn of the loop of `Schedule_vehicles`. -/
def schedulePassWith (cars : ι → Vehicle) (lock : VehicleType → Nat) (fuel : Nat) (free : Segment → Bool) :
    Lane ι ZoneQueue Unit := do
  let s ← read
  if s.AllEmpty then pure ()
  else do
    beginPassWith acquire lock fuel free
    searchTypeWith acquire cars lock fuel .ambulance
    searchTypeWith acquire cars lock fuel .car
    searchTypeWith acquire cars lock fuel .truck

end Acquire

variable {s : Lanes ι ZoneQueue} {fuel : Nat}

theorem searchType_scans (cars : ι → Vehicle) {type : VehicleType} {xs : List ι}
    (lock : VehicleType → Nat) (chained : s.Chained (.vehicleScheduler,type) xs)
    (enough : xs.length ≤ fuel) :
    (searchTypeWith lockAvailable cars lock fuel type).wp s
      (fun _ t => ∃ woken held, Scan cars xs s.iseg t.iseg woken held ∧
        Elsewhere s t (s.head (.vehicleScheduler,type) :: xs) [(.vehicleScheduler,type)])
      never never := by
  simp only [searchTypeWith,wp_bind,wp_lockAvailable,wp_attempt]
  refine wp_total (schedulerSearch_scans cars (s := s.setHeld (lock type) true) chained.chain enough) ?_
  rintro _ t ⟨woken,held,-,scan,elsewhere⟩
  exact ⟨woken,held,scan,elsewhere.next,elsewhere.head,elsewhere.tail⟩

theorem beginPass_spec {contents : ZoneQueue → List ι} {extra : ZoneQueue → Nat}
    (zoned : s.Zoned contents extra) (lock : VehicleType → Nat) (free : Segment → Bool)
    (enough : ∀ type, (contents (.waitingZone,type)).length ≤ fuel) :
    (beginPassWith lockAvailable lock fuel free).wp s (fun _ t => t.Zoned (gathered contents) extra)
      never never := by
  simp only [beginPassWith,wp_bind]
  refine wp_imp (waitingZoneConsume_spec zoned lock enough) ?_
  rintro _ t ⟨-,zoned,-⟩
  simp only [lockTryAcquireAlert,wp_modify]
  exact ⟨fun k => ⟨(zoned.chained k).chain,(zoned.chained k).tail⟩,zoned.disjoint,zoned.size,zoned.exact_⟩

/-- The three searches of a pass, one after another, with the vehicles of each type in `queues`.
While the cars are visited no ambulance that was passed by fits the segments held, and while the
trucks are visited no ambulance and no car does. -/
def RespectsPriority (cars : ι → Vehicle) (lock : VehicleType → Nat) (fuel : Nat)
    (queues : VehicleType → List ι) (s : Lanes ι ZoneQueue) : Prop :=
  (searchTypeWith lockAvailable cars lock fuel .ambulance).wp s (fun _ t => ∃ woken held,
    Scan cars (queues .ambulance) s.iseg t.iseg woken held ∧
    (searchTypeWith lockAvailable cars lock fuel .car).wp t (fun _ u => ∃ woken' held',
      Scan cars (queues .car) t.iseg u.iseg woken' held' ∧
      (∀ i ≤ (queues .car).length, NoneFits cars (queues .ambulance) woken (held' i)) ∧
      (searchTypeWith lockAvailable cars lock fuel .truck).wp u (fun _ v => ∃ woken'' held'',
        Scan cars (queues .truck) u.iseg v.iseg woken'' held'' ∧
        ∀ i ≤ (queues .truck).length, NoneFits cars (queues .ambulance) woken (held'' i) ∧
          NoneFits cars (queues .car) woken' (held'' i))
        (fun _ _ => False) fun _ _ => False)
      (fun _ _ => False) fun _ _ => False)
    (fun _ _ => False) fun _ _ => False

theorem Zoned.respectsPriority (cars : ι → Vehicle)
    {contents : ZoneQueue → List ι} {extra : ZoneQueue → Nat} (zoned : s.Zoned contents extra)
    (lock : VehicleType → Nat)
    (enough : ∀ type, (contents (.vehicleScheduler,type)).length ≤ fuel) :
    RespectsPriority cars lock fuel (fun type => contents (.vehicleScheduler,type)) s := by
  refine wp_imp (searchType_scans cars lock (zoned.chained _) (enough _)) ?_
  rintro _ t ⟨woken,held,scan,elsewhere⟩
  have carsHere := elsewhere.chained (zoned.chained (.vehicleScheduler,.car)) (by simp)
    (zoned.disjoint _ _ (by simp))
  have trucksHere := elsewhere.chained (zoned.chained (.vehicleScheduler,.truck)) (by simp)
    (zoned.disjoint _ _ (by simp))
  refine ⟨woken,held,scan,?_⟩
  refine wp_imp (searchType_scans cars lock carsHere (enough _)) ?_
  rintro _ u ⟨woken',held',scan',elsewhere'⟩
  have apart : List.Disjoint
      (t.head (.vehicleScheduler,.truck) :: contents (.vehicleScheduler,.truck))
      (t.head (.vehicleScheduler,.car) :: contents (.vehicleScheduler,.car)) := by
    rw [elsewhere.head]
    exact zoned.disjoint _ _ (by simp)
  have trucksThere := elsewhere'.chained trucksHere (by simp) apart
  have ambulances : NoneFits cars (contents (.vehicleScheduler,.ambulance)) woken t.iseg := scan.rest
  have during := fun i (within : i ≤ (contents (.vehicleScheduler,.car)).length) =>
    ambulances.scan scan' within
  refine ⟨woken',held',scan',during,?_⟩
  refine wp_imp (searchType_scans cars lock trucksThere (enough _)) ?_
  rintro _ v ⟨woken'',held'',scan'',-⟩
  have later : NoneFits cars (contents (.vehicleScheduler,.ambulance)) woken u.iseg := by
    rw [← scan'.last]
    exact during _ (Nat.le_refl _)
  have carsPassed : NoneFits cars (contents (.vehicleScheduler,.car)) woken' u.iseg := scan'.rest
  exact ⟨woken'',held'',scan'',fun i within => ⟨later.scan scan'' within,carsPassed.scan scan'' within⟩⟩

end Pass

/-- With node locks that are always available, a search visits the vehicles of its queue in order,
wakes one just if all the segments of its turn are still held, and gives exactly those up; in the end
no vehicle that was passed by has all its segments held. In a pass of `Schedule_vehicles`, after the
waiting zone has been moved, the ambulances come before the cars and the cars before the trucks. -/
theorem scheduler_is_greedy {ι κ : Type} [DecidableEq ι] [DecidableEq κ] (cars : ι → Vehicle) :
    (∀ (s : Lanes ι κ) (q : κ) (xs : List ι) (fuel : Nat),
      Links.Heads s.next (some (s.head q)) (s.head q :: xs) → xs.length ≤ fuel →
      (schedulerSearchWith lockAvailable cars fuel (some q)).wp s
        (fun _ t => ∃ woken held, t.woken = s.woken ++ woken ∧ Scan cars xs s.iseg t.iseg woken held)
        (fun _ _ => False) fun _ _ => False) ∧
    ∀ (s : Lanes ι ZoneQueue) (contents : ZoneQueue → List ι) (extra : ZoneQueue → Nat)
      (lock : VehicleType → Nat) (fuel : Nat) (free : Segment → Bool), s.Zoned contents extra →
      (∀ type, (contents (.vehicleScheduler,type) ++ contents (.waitingZone,type)).length ≤ fuel) →
      ¬ s.AllEmpty →
      schedulePassWith lockAvailable cars lock fuel free s =
        (do
          beginPassWith lockAvailable lock fuel free
          searchTypeWith lockAvailable cars lock fuel .ambulance
          searchTypeWith lockAvailable cars lock fuel .car
          searchTypeWith lockAvailable cars lock fuel .truck : Lane ι ZoneQueue Unit) s ∧
      (beginPassWith lockAvailable lock fuel free).wp s
        (fun _ t => RespectsPriority cars lock fuel
          (fun type => contents (.vehicleScheduler,type) ++ contents (.waitingZone,type)) t)
        (fun _ _ => False) fun _ _ => False := by
  constructor
  · intro s q xs fuel chain enough
    refine wp_imp (schedulerSearch_scans cars chain enough) ?_
    rintro _ t ⟨woken,held,added,scan,-⟩
    exact ⟨woken,held,added,scan⟩
  · intro s contents extra lock fuel free zoned enough some_
    constructor
    · rw [schedulePassWith,bind_ok (rfl : read s = (.ok s,s)),if_neg some_]
    · have waiting : ∀ type, (contents (.waitingZone,type)).length ≤ fuel := fun type => by
        have both := enough type
        rw [List.length_append] at both
        omega
      refine wp_imp (beginPass_spec zoned lock free waiting) ?_
      exact fun _ t zoned => zoned.respectsPriority cars lock enough

/-- Only segment BC is held: the vehicle from A is passed by and the one from B let in. -/
theorem scheduler_is_greedy_street :
    (schedulerSearchWith lockAvailable twoCars 2 (some 0)).wp street
      (fun _ t => ∃ woken held, t.woken = street.woken ++ woken ∧
        Scan twoCars [1,2] street.iseg t.iseg woken held)
      (fun _ _ => False) fun _ _ => False :=
  (scheduler_is_greedy twoCars).1 street 0 [1,2] 2 street_holds.chain (Nat.le_refl 2)

end Lanes

end Os161
