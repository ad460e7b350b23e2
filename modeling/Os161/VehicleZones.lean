import Os161.VehicleQueue

/-! Moving the waiting zone to the scheduler's queues, and a pass of the scheduler. Node locks
are always available here. -/
namespace Os161

open Function

inductive Zone where
  | waitingZone | vehicleScheduler
  deriving DecidableEq, Repr

abbrev ZoneQueue := Zone × VehicleType

namespace Lanes
variable {ι : Type} [DecidableEq ι]

section Acquire
variable (acquire : Nat → Lane ι ZoneQueue Unit)

def moveTypeWith (fuel : Nat) (type : VehicleType) (result : Bool) : Lane ι ZoneQueue Bool := do
  let s ← read
  if s.size (.waitingZone,type) > 0 then
    let consumed ← attempt
      (queueConsumeWith acquire fuel (some (.waitingZone,type)) (some (.vehicleScheduler,type)))
    match consumed with
    | .ok _ => pure result
    | .error _ => pure false
  else pure result

/-- `Waiting_zone_consume`; `lock` numbers `lockA`, `lockC` and `lockT`. The result tells whether
`SUCCESS` is returned. -/
def waitingZoneConsumeWith (lock : VehicleType → Nat) (fuel : Nat) : Lane ι ZoneQueue Bool := do
  acquire (lock .ambulance)
  acquire (lock .car)
  acquire (lock .truck)
  let result ← moveTypeWith acquire fuel .ambulance true
  let result ← moveTypeWith acquire fuel .car result
  let result ← moveTypeWith acquire fuel .truck result
  lockRelease (lock .truck)
  lockRelease (lock .car)
  lockRelease (lock .ambulance)
  pure result

end Acquire

end Lanes

/-! One queue -/

namespace Lanes
variable {ι κ : Type} [DecidableEq ι] [DecidableEq κ] {s t : Lanes ι κ} {pq dq q : κ}
  {err : StoplightError → Lanes ι κ → Prop} {halt : StoplightHang → Lanes ι κ → Prop}

omit [DecidableEq ι] [DecidableEq κ] in
theorem Chained.congr {xs : List ι} (chained : s.Chained q xs) (head : t.head q = s.head q)
    (tail : t.tail q = s.tail q) (next : ∀ x ∈ s.head q :: xs, t.next x = s.next x) : t.Chained q xs := by
  refine ⟨?_,?_⟩
  · rw [head]
    exact chained.chain.congr next
  · rw [head,tail]
    exact chained.tail

theorem wp_queueProduce_available {v : ι} {ok : Nat → Lanes ι κ → Prop} :
    (queueProduceWith lockAvailable (some q) (some v)).wp s ok err halt ↔
      ok (s.size q + 1) (s.produced q v) := by
  simp only [queueProduceWith,wp_bind,wp_modify,wp_read,wp_lockAvailable,
    wp_lockRelease,wp_pure]
  simp [link,setNext,setTail,setHeld,setSize,produced]

theorem wp_consumeLoop_available {fuel : Nat} {current : ι} {ok : Unit → Lanes ι κ → Prop} :
    (consumeLoopWith lockAvailable pq dq (fuel + 1) (some current)).wp s ok err halt ↔
      (consumeLoopWith lockAvailable pq dq fuel (s.next current)).wp (s.consumed pq dq current) ok
        err halt := by
  simp only [consumeLoopWith,wp_bind,wp_read,wp_lockAvailable,wp_pop,wp_lockRelease,
    wp_attempt,wp_queueProduce_available]
  rfl

variable {ys : List ι}

theorem Chained.consumed {v : ι} {rest : List ι} (apart : dq ≠ pq) (source : s.Chained pq (v :: rest))
    (target : s.Chained dq ys) (disjoint : List.Disjoint (s.head pq :: v :: rest) (s.head dq :: ys)) :
    (s.consumed pq dq v).Chained pq rest ∧ (s.consumed pq dq v).Chained dq (ys ++ [v]) := by
  have link : s.next (s.head pq) = some v := (Links.heads_cons.1 source.first).1
  have here : Links.Heads s.next (some v) (v :: rest) := link ▸ source.first
  have behind := (source.popped here List.suffix_rfl).1
  have notHead := (List.nodup_cons.1 source.chain.nodup).1
  have notBehind := (List.nodup_cons.1 here.nodup).1
  have tailMem : s.tail dq ∈ s.head dq :: ys := target.tail ▸ List.getLastD_mem_cons
  have tail : (s.popped pq v).tail dq = s.tail dq := popped_tail apart v
  have other : (s.popped pq v).Chained dq ys := by
    refine target.congr rfl tail fun x member => ?_
    have notV : x ≠ v := fun equal =>
      disjoint (List.mem_cons_of_mem _ List.mem_cons_self) (equal ▸ member)
    have notFirst : x ≠ s.head pq := fun equal => disjoint List.mem_cons_self (equal ▸ member)
    simp only [Lanes.popped,update_of_ne notV,update_of_ne notFirst]
  have fresh : v ∉ (s.popped pq v).head dq :: ys :=
    disjoint (List.mem_cons_of_mem _ List.mem_cons_self)
  have longer := other.linked fresh
  refine ⟨behind.congr rfl ?_ fun x member => ?_,⟨longer.chain,longer.tail⟩⟩
  · exact update_of_ne apart.symm _ _
  · have notV : x ≠ v := by
      rintro rfl
      rcases List.mem_cons.1 member with first | later
      · exact notHead (first ▸ List.mem_cons_self)
      · exact notBehind later
    have notTail : x ≠ (s.popped pq v).tail dq := by
      rw [tail]
      rintro rfl
      rcases List.mem_cons.1 member with first | later
      · exact disjoint (first ▸ List.mem_cons_self) tailMem
      · exact disjoint (List.mem_cons_of_mem _ (List.mem_cons_of_mem _ later)) tailMem
    exact (update_of_ne notTail _ _).trans (update_of_ne notV _ _)

structure Elsewhere (s t : Lanes ι κ) (nodes : List ι) (queues : List κ) : Prop where
  next : ∀ x, x ∉ nodes → t.next x = s.next x
  head : t.head = s.head
  tail : ∀ q, q ∉ queues → t.tail q = s.tail q

structure Moving (s t : Lanes ι κ) (nodes : List ι) (queues : List κ) : Prop
    extends Elsewhere s t nodes queues where
  size : ∀ q, q ∉ queues → t.size q = s.size q
  iseg : t.iseg = s.iseg
  woken : t.woken = s.woken

variable {nodes : List ι} {queues : List κ}

omit [DecidableEq ι] [DecidableEq κ] in
theorem Moving.widen {nodes' : List ι} (elsewhere : Moving s t nodes queues)
    (within : nodes ⊆ nodes') : Moving s t nodes' queues :=
  { elsewhere with next := fun x outside => elsewhere.next x fun member => outside (within member) }

omit [DecidableEq ι] [DecidableEq κ] in
theorem Moving.trans {u : Lanes ι κ} {nodes' : List ι}
    (first : Moving s t nodes queues) (second : Moving t u nodes' queues) (within : nodes' ⊆ nodes) :
    Moving s u nodes queues where
  next x outside := (second.next x fun member => outside (within member)).trans (first.next x outside)
  head := second.head.trans first.head
  tail q outside := (second.tail q outside).trans (first.tail q outside)
  size q outside := (second.size q outside).trans (first.size q outside)
  iseg := second.iseg.trans first.iseg
  woken := second.woken.trans first.woken

omit [DecidableEq ι] [DecidableEq κ] in
theorem Elsewhere.chained {xs : List ι} (elsewhere : Elsewhere s t nodes queues)
    (chained : s.Chained q xs) (queue : q ∉ queues) (disjoint : List.Disjoint (s.head q :: xs) nodes) :
    t.Chained q xs :=
  chained.congr (congrFun elsewhere.head q) (elsewhere.tail q queue) fun x member =>
    elsewhere.next x (disjoint member)

theorem moving_consumed (apart : dq ≠ pq) (v : ι) :
    Moving s (s.consumed pq dq v) [s.head pq,v,s.tail dq] [pq,dq] where
  next x outside := by
    simp only [List.mem_cons,List.not_mem_nil,or_false,not_or] at outside
    exact consumed_next apart outside.2.1 outside.2.2 outside.1
  head := rfl
  tail q outside := by
    simp only [List.mem_cons,List.not_mem_nil,or_false,not_or] at outside
    have popped : (s.popped pq v).tail q = s.tail q := popped_tail outside.1 v
    exact (update_of_ne outside.2 _ _).trans popped
  size q outside := by
    simp only [List.mem_cons,List.not_mem_nil,or_false,not_or] at outside
    exact update_of_ne outside.2 _ _
  iseg := rfl
  woken := rfl

theorem consumed_size (v : ι) : (s.consumed pq dq v).size = update s.size dq (s.size dq + 1) := rfl

theorem consumeLoop_moves {rest : List ι} {current : Option ι} {fuel : Nat} (apart : dq ≠ pq)
    (source : s.Chained pq rest) (target : s.Chained dq ys)
    (disjoint : List.Disjoint (s.head pq :: rest) (s.head dq :: ys))
    (here : current = s.next (s.head pq)) (enough : rest.length ≤ fuel) :
    (consumeLoopWith lockAvailable pq dq fuel current).wp s
      (fun _ t => t.Chained pq [] ∧ t.Chained dq (ys ++ rest) ∧ t.size dq = s.size dq + rest.length ∧
        t.size pq = s.size pq ∧
        Moving s t (s.head pq :: rest ++ s.head dq :: ys) [pq,dq]) never never := by
  induction rest generalizing s ys current fuel with
  | nil =>
    obtain rfl : current = none := here.trans (source.first.eq_none.mpr rfl)
    rw [consumeLoopWith,wp_pure,List.append_nil]
    exact ⟨source,target,rfl,rfl,⟨⟨fun _ _ => rfl,rfl,fun _ _ => rfl⟩,fun _ _ => rfl,rfl,rfl⟩⟩
  | cons v rest later =>
    obtain rfl : current = some v := here.trans (Links.heads_cons.1 source.first).1
    obtain ⟨fuel,rfl⟩ : ∃ n, fuel = n + 1 := ⟨fuel - 1,by simp only [List.length_cons] at enough; omega⟩
    obtain ⟨source',target'⟩ := source.consumed apart target disjoint
    have tailMem : s.tail dq ∈ s.head dq :: ys := target.tail ▸ List.getLastD_mem_cons
    have step := moving_consumed (s := s) apart v
    have disjoint' : List.Disjoint ((s.consumed pq dq v).head pq :: rest)
        ((s.consumed pq dq v).head dq :: (ys ++ [v])) := by
      intro x mine yours
      have inSource : x ∈ s.head pq :: v :: rest :=
        List.cons_subset_cons _ (List.subset_cons_self v rest) mine
      have joined : x ∈ (s.head dq :: ys) ++ [v] := yours
      rcases List.mem_append.1 joined with old | new
      · exact disjoint inSource old
      · obtain rfl := List.mem_singleton.1 new
        rcases List.mem_cons.1 mine with first | later
        · exact (List.nodup_cons.1 source.chain.nodup).1 (first ▸ List.mem_cons_self)
        · exact (List.nodup_cons.1 source.first.nodup).1 later
    rw [wp_consumeLoop_available]
    refine wp_imp (later source' target' disjoint' ?_ (Nat.le_of_succ_le_succ enough)) ?_
    · have old := (Links.heads_cons.1 source.first).2.head_eq
      exact old.trans source'.first.head_eq.symm
    · rintro _ t ⟨emptied,filled,size,kept,moving⟩
      refine ⟨emptied,?_,?_,?_,?_⟩
      · rwa [List.append_assoc] at filled
      · rw [size,consumed_size,update_self,List.length_cons]
        omega
      · rw [kept,consumed_size,update_of_ne apart.symm]
      · have touched : [s.head pq,v,s.tail dq] ⊆ s.head pq :: v :: rest ++ s.head dq :: ys := by
          intro x member
          simp only [List.mem_cons,List.not_mem_nil,or_false] at member
          rcases member with rfl | rfl | rfl
          · exact List.mem_append_left _ List.mem_cons_self
          · exact List.mem_append_left _ (List.mem_cons_of_mem _ List.mem_cons_self)
          · exact List.mem_append_right _ tailMem
        refine (step.widen touched).trans moving fun x member => ?_
        simp only [List.mem_append,List.mem_cons,List.not_mem_nil,or_false] at member ⊢
        rcases member with (rfl | inRest) | (rfl | inYs | rfl)
        · exact .inl (.inl rfl)
        · exact .inl (.inr (.inr inRest))
        · exact .inr (.inl rfl)
        · exact .inr (.inr inYs)
        · exact .inl (.inr (.inl rfl))

theorem queueConsume_moves {xs : List ι} {fuel : Nat} (apart : dq ≠ pq) (some_ : s.size pq ≠ 0)
    (source : s.Chained pq xs) (target : s.Chained dq ys)
    (disjoint : List.Disjoint (s.head pq :: xs) (s.head dq :: ys)) (enough : xs.length ≤ fuel) :
    (queueConsumeWith lockAvailable fuel (some pq) (some dq)).wp s
      (fun _ t => t.Holds pq [] ∧ t.Chained dq (ys ++ xs) ∧ t.size dq = s.size dq + xs.length ∧
        Moving s t (s.head pq :: xs ++ s.head dq :: ys) [pq,dq]) never never := by
  simp only [queueConsumeWith,wp_bind,wp_read,if_neg some_,wp_lockAvailable]
  refine wp_imp (consumeLoop_moves
    (s := (s.setHeld (s.lock (s.head pq)) true).setHeld (s.lock (s.head dq)) true) apart
    ⟨source.chain,source.tail⟩ ⟨target.chain,target.tail⟩ disjoint rfl enough) ?_
  rintro _ t ⟨emptied,filled,size,-,elsewhere⟩
  simp only [wp_lockRelease,wp_modify]
  refine ⟨⟨⟨emptied.chain,emptied.tail⟩,?_⟩,⟨filled.chain,filled.tail⟩,?_,?_⟩
  · exact update_self _ _ _
  · exact (update_of_ne apart _ _).trans size
  · refine ⟨⟨elsewhere.next,elsewhere.head,elsewhere.tail⟩,fun q outside => ?_,elsewhere.iseg,
      elsewhere.woken⟩
    have notSource : q ≠ pq := fun equal => outside (equal ▸ List.mem_cons_self)
    exact (update_of_ne notSource _ _).trans (elsewhere.size q outside)

end Lanes

/-! The waiting zone -/

namespace Lanes
variable {ι : Type} [DecidableEq ι] {s t : Lanes ι ZoneQueue} {contents : ZoneQueue → List ι}
  {extra : ZoneQueue → Nat}

/-- The six queues hold `contents` on nodes of their own. The size of a queue is the number of its
vehicles and `extra` more; only the scheduler's queues may have more. -/
structure Zoned (s : Lanes ι ZoneQueue) (contents : ZoneQueue → List ι) (extra : ZoneQueue → Nat) : Prop where
  chained : ∀ k, s.Chained k (contents k)
  disjoint : ∀ k k', k ≠ k' → List.Disjoint (s.head k :: contents k) (s.head k' :: contents k')
  size : ∀ k, s.size k = (contents k).length + extra k
  exact_ : ∀ type, extra (.waitingZone,type) = 0

def movedType (contents : ZoneQueue → List ι) (type : VehicleType) : ZoneQueue → List ι :=
  update (update contents (.waitingZone,type) []) (.vehicleScheduler,type)
    (contents (.vehicleScheduler,type) ++ contents (.waitingZone,type))

omit [DecidableEq ι] in
theorem movedType_scheduler (type : VehicleType) :
    movedType contents type (.vehicleScheduler,type) =
      contents (.vehicleScheduler,type) ++ contents (.waitingZone,type) := update_self _ _ _

omit [DecidableEq ι] in
theorem movedType_waiting (type : VehicleType) : movedType contents type (.waitingZone,type) = [] :=
  (update_of_ne (by simp) _ _).trans (update_self _ _ _)

variable {type : VehicleType} {k : ZoneQueue}

omit [DecidableEq ι] in
theorem movedType_other
    (other : k ∉ [(Zone.waitingZone,type),(Zone.vehicleScheduler,type)]) :
    movedType contents type k = contents k := by
  simp only [List.mem_cons,List.not_mem_nil,or_false,not_or] at other
  exact (update_of_ne other.2 _ _).trans (update_of_ne other.1 _ _)

omit [DecidableEq ι] in
theorem mem_movedType {x : ι}
    (member : x ∈ s.head k :: movedType contents type k) :
    (x ∈ s.head k :: contents k ∧ (k = (.waitingZone,type) → x = s.head k)) ∨
      k = (.vehicleScheduler,type) ∧ x ∈ contents (.waitingZone,type) := by
  by_cases target : k = (.vehicleScheduler,type)
  · subst target
    rw [movedType_scheduler,← List.cons_append] at member
    exact (List.mem_append.1 member).imp (fun old => ⟨old,fun equal => by simp at equal⟩)
      fun new => ⟨rfl,new⟩
  by_cases source : k = (.waitingZone,type)
  · subst source
    rw [movedType_waiting,List.mem_singleton] at member
    exact .inl ⟨member ▸ List.mem_cons_self,fun _ => member⟩
  · rw [movedType_other (by simp [source,target])] at member
    exact .inl ⟨member,fun equal => (source equal).elim⟩

omit [DecidableEq ι] in
theorem Zoned.not_moved (zoned : s.Zoned contents extra) {x : ι}
    (waiting : x ∈ contents (.waitingZone,type)) (old : x ∈ s.head k :: contents k)
    (first : k = (.waitingZone,type) → x = s.head k) : False := by
  by_cases source : k = (.waitingZone,type)
  · have head := first source
    subst source
    exact (List.nodup_cons.1 (zoned.chained _).chain.nodup).1 (head ▸ waiting)
  · exact zoned.disjoint _ _ source old (List.mem_cons_of_mem _ waiting)

omit [DecidableEq ι] in
theorem Zoned.disjoint_moved (zoned : s.Zoned contents extra) (type : VehicleType) {k' : ZoneQueue}
    (different : k ≠ k') :
    List.Disjoint (s.head k :: movedType contents type k) (s.head k' :: movedType contents type k') := by
  intro x mine yours
  rcases mem_movedType mine with ⟨old,first⟩ | ⟨rfl,new⟩
  · rcases mem_movedType yours with ⟨old',-⟩ | ⟨-,new'⟩
    · exact zoned.disjoint k k' different old old'
    · exact zoned.not_moved new' old first
  · rcases mem_movedType yours with ⟨old',first'⟩ | ⟨rfl,-⟩
    · exact zoned.not_moved new old' first'
    · exact different rfl

theorem moveType_spec (zoned : s.Zoned contents extra) {fuel : Nat} (result : Bool)
    (enough : (contents (.waitingZone,type)).length ≤ fuel) :
    (moveTypeWith lockAvailable fuel type result).wp s
      (fun answer t => answer = result ∧ t.Zoned (movedType contents type) extra ∧ t.iseg = s.iseg ∧
        t.woken = s.woken ∧ t.head = s.head) never never := by
  rw [moveTypeWith,wp_bind,wp_read,wp_ite]
  have counted := zoned.size (.waitingZone,type)
  rw [zoned.exact_,Nat.add_zero] at counted
  constructor
  · intro some_
    have apart : (Zone.vehicleScheduler,type) ≠ (Zone.waitingZone,type) := by simp
    rw [wp_bind,wp_attempt]
    refine wp_total (queueConsume_moves apart (Nat.ne_of_gt some_) (zoned.chained _)
      (zoned.chained _) (zoned.disjoint _ _ apart.symm) enough) ?_
    rintro _ t ⟨emptied,filled,size,elsewhere⟩
    refine ⟨rfl,⟨fun k => ?_,fun k k' different => ?_,fun k => ?_,zoned.exact_⟩,elsewhere.iseg,
      elsewhere.woken,elsewhere.head⟩
    · by_cases target : k = (.vehicleScheduler,type)
      · subst target
        rw [movedType_scheduler]
        exact filled
      by_cases source : k = (.waitingZone,type)
      · subst source
        rw [movedType_waiting]
        exact emptied.toChained
      · have other : k ∉ [(Zone.waitingZone,type),(Zone.vehicleScheduler,type)] := by simp [source,target]
        rw [movedType_other other]
        refine elsewhere.chained (zoned.chained k) other fun x mine yours => ?_
        rcases List.mem_append.1 yours with left | right
        · exact zoned.disjoint _ _ source mine left
        · exact zoned.disjoint _ _ target mine right
    · rw [elsewhere.head]
      exact zoned.disjoint_moved type different
    · by_cases target : k = (.vehicleScheduler,type)
      · subst target
        rw [movedType_scheduler,size,zoned.size,List.length_append]
        omega
      by_cases source : k = (.waitingZone,type)
      · subst source
        rw [movedType_waiting,zoned.exact_]
        exact emptied.size
      · have other : k ∉ [(Zone.waitingZone,type),(Zone.vehicleScheduler,type)] := by simp [source,target]
        rw [movedType_other other,elsewhere.size k other]
        exact zoned.size k
  · -- nothing to move
    intro none_
    have empty : contents (.waitingZone,type) = [] := List.length_eq_zero_iff.mp (by omega)
    have same : movedType contents type = contents := by
      unfold movedType
      rw [empty,List.append_nil,← empty,update_eq_self,update_eq_self]
    rw [wp_pure,same]
    exact ⟨rfl,zoned,rfl,rfl,rfl⟩

omit [DecidableEq ι] in
theorem Zoned.setHeld (zoned : s.Zoned contents extra) (l : Nat) (held : Bool) :
    (s.setHeld l held).Zoned contents extra :=
  ⟨fun k => ⟨(zoned.chained k).chain,(zoned.chained k).tail⟩,zoned.disjoint,zoned.size,zoned.exact_⟩

def gathered (contents : ZoneQueue → List ι) : ZoneQueue → List ι
  | (.waitingZone,_) => []
  | (.vehicleScheduler,type) => contents (.vehicleScheduler,type) ++ contents (.waitingZone,type)

omit [DecidableEq ι] in
theorem movedType_all : movedType (movedType (movedType contents .ambulance) .car) .truck =
    gathered contents := by
  funext k
  obtain ⟨zone,type⟩ := k
  cases zone <;> cases type <;> simp [movedType,gathered]

theorem waitingZoneConsume_spec (zoned : s.Zoned contents extra) (lock : VehicleType → Nat) {fuel : Nat}
    (enough : ∀ type, (contents (.waitingZone,type)).length ≤ fuel) :
    (waitingZoneConsumeWith lockAvailable lock fuel).wp s
      (fun result t => result = true ∧ t.Zoned (gathered contents) extra ∧ t.iseg = s.iseg ∧
        t.woken = s.woken ∧ t.head = s.head) never never := by
  simp only [waitingZoneConsumeWith,wp_bind,wp_lockAvailable,wp_lockRelease,wp_pure]
  have still : ∀ {type other : VehicleType} {c : ZoneQueue → List ι}, other ≠ type →
      movedType c type (.waitingZone,other) = c (.waitingZone,other) := by
    intro type other c different
    exact movedType_other (by simp [different])
  refine wp_imp (moveType_spec (((zoned.setHeld _ _).setHeld _ _).setHeld _ _) true
    (enough .ambulance)) ?_
  rintro _ t ⟨rfl,zoned,iseg,woken,head⟩
  have cars : (movedType contents .ambulance (.waitingZone,.car)).length ≤ fuel := by
    rw [still (by simp)]
    exact enough .car
  refine wp_imp (moveType_spec zoned true cars) ?_
  rintro _ u ⟨rfl,zoned,iseg',woken',head'⟩
  have trucks : (movedType (movedType contents .ambulance) .car (.waitingZone,.truck)).length ≤ fuel := by
    rw [still (by simp),still (by simp)]
    exact enough .truck
  refine wp_imp (moveType_spec zoned true trucks) ?_
  rintro _ v ⟨rfl,zoned,iseg'',woken'',head''⟩
  rw [movedType_all] at zoned
  exact ⟨rfl,((zoned.setHeld _ _).setHeld _ _).setHeld _ _,iseg''.trans (iseg'.trans iseg),
    woken''.trans (woken'.trans woken),head''.trans (head'.trans head)⟩

end Lanes

namespace Lanes
variable {ι κ : Type} [DecidableEq ι] [DecidableEq κ]

/-- With node locks that are always available, `Queue_consume` on well-formed queues leaves the
source empty and appends its vehicles to the destination, in order. `Waiting_zone_consume` does that
for each of the three types, so that the queues for a type hold the same vehicles as before. -/
theorem waiting_zone_keeps_vehicles :
    (∀ (s : Lanes ι κ) (pq dq : κ) (xs ys : List ι) (fuel : Nat), dq ≠ pq → xs ≠ [] →
      s.Holds pq xs → s.Holds dq ys → List.Disjoint (s.head pq :: xs) (s.head dq :: ys) →
      xs.length ≤ fuel →
      (queueConsumeWith lockAvailable fuel (some pq) (some dq)).wp s
        (fun _ t => t.Holds pq [] ∧ t.Holds dq (ys ++ xs)) (fun _ _ => False) fun _ _ => False) ∧
    ∀ (s : Lanes ι ZoneQueue) (contents : ZoneQueue → List ι) (lock : VehicleType → Nat) (fuel : Nat),
      (∀ k, s.Holds k (contents k)) →
      (∀ k k', k ≠ k' → List.Disjoint (s.head k :: contents k) (s.head k' :: contents k')) →
      (∀ type, (contents (.waitingZone,type)).length ≤ fuel) →
      (waitingZoneConsumeWith lockAvailable lock fuel).wp s
        (fun result t => result = true ∧ ∃ after : ZoneQueue → List ι, (∀ k, t.Holds k (after k)) ∧
          ∀ type, after (.waitingZone,type) = [] ∧
            after (.vehicleScheduler,type) =
              contents (.vehicleScheduler,type) ++ contents (.waitingZone,type) ∧
            List.Perm (after (.waitingZone,type) ++ after (.vehicleScheduler,type))
              (contents (.waitingZone,type) ++ contents (.vehicleScheduler,type)))
        (fun _ _ => False) fun _ _ => False := by
  constructor
  · intro s pq dq xs ys fuel apart some_ source target disjoint enough
    have size : s.size pq ≠ 0 := by
      rw [source.size]
      exact fun zero => some_ (List.length_eq_zero_iff.mp zero)
    refine wp_imp (queueConsume_moves apart size source.toChained target.toChained disjoint enough)
      ?_
    rintro _ t ⟨emptied,filled,grown,-⟩
    refine ⟨emptied,filled,?_⟩
    rw [grown,target.size,List.length_append]
  · intro s contents lock fuel holds disjoint enough
    have zoned : s.Zoned contents fun _ => 0 :=
      ⟨fun k => (holds k).toChained,disjoint,fun k => (holds k).size,fun _ => rfl⟩
    refine wp_imp (waitingZoneConsume_spec zoned lock enough) ?_
    rintro result t ⟨success,zoned,-⟩
    refine ⟨success,gathered contents,fun k => ⟨zoned.chained k,zoned.size k⟩,fun type => ?_⟩
    have same : List.Perm (contents (.vehicleScheduler,type) ++ contents (.waitingZone,type))
        (contents (.waitingZone,type) ++ contents (.vehicleScheduler,type)) := List.perm_append_comm
    exact ⟨rfl,rfl,same⟩

theorem waiting_zone_keeps_lot :
    (queueConsumeWith lockAvailable 1 (some false) (some true)).wp lot
      (fun _ t => t.Holds false [] ∧ t.Holds true [1]) (fun _ _ => False) fun _ _ => False :=
  waiting_zone_keeps_vehicles.1 lot false true [1] [] 1 (by decide) (by decide)
    ⟨⟨.cons (.cons .nil),rfl⟩,rfl⟩ ⟨⟨.cons .nil,rfl⟩,rfl⟩ (by unfold List.Disjoint; decide) (Nat.le_refl 1)

end Lanes

end Os161
