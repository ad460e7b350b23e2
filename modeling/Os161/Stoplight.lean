import Os161.Interleaving
import Os161.VehicleQueue

/-! The threads of `asst1/stoplight.c`: `approachintersection` for any number of vehicles and
`Schedule_vehicles`, with the segment locks and the two sleep addresses between them. Every
operation on a segment lock, every `kprintf` and every `thread_sleep` and `thread_wakeup` is
one step; the queue operations are steps of their own, with the node locks always available,
and `Waiting_zone_produce` appends the vehicle to the waiting-zone queue of its type. A
wakeup moves only threads that are asleep. -/
namespace Os161

open Function

inductive Agent (ι : Type) where
  | scheduler | vehicle (i : ι)
  deriving DecidableEq, Repr

/-- A place in the search: the type of the queue, the vehicles from `current` on, and the
types of the queues to be searched after it. -/
structure SearchPos (ι : Type) where
  type : VehicleType
  rest : List ι
  more : List VehicleType
  deriving DecidableEq, Repr

/-- Where the scheduler is: at `schedule_iteration`, at the test of the sizes, in
`Waiting_zone_consume`, at the calls of `lock_try_acquire_alert`, or in a search, where it
hands the intersection to a vehicle: it releases the segments, wakes the vehicle and sleeps. -/
inductive SchedPc (ι : Type) where
  | iteration
  | sizes
  | consume (todo : List VehicleType)
  | tryAcquire (todo : List Segment)
  | search (pos : SearchPos ι)
  | release (todo : List Segment) (v : ι) (pos : SearchPos ι)
  | wakeup (v : ι) (pos : SearchPos ι)
  | sleep (pos : SearchPos ι)
  | asleep (pos : SearchPos ι)
  | finished
  deriving DecidableEq, Repr

/-- Where a vehicle is: before `Waiting_zone_produce`, the message of its arrival and
`thread_sleep`; asleep; at the segment locks still to be acquired; at the wakeup of the
scheduler; and then at the messages and at the releases, segment by segment. -/
inductive VehiclePc where
  | start
  | produced
  | arrived
  | asleep
  | acquire (todo : List Segment)
  | wakeup
  | turning
  | enter (g : Segment) (rest : List Segment)
  | release (g : Segment) (rest : List Segment)
  | leave (g : Segment) (rest : List Segment)
  | exited
  | gone
  deriving DecidableEq, Repr

inductive Line (ι : Type) where
  | entered (i : ι) (g : Segment)
  | left (i : ι) (g : Segment)
  deriving DecidableEq, Repr

/-- `holder` gives the holder of each segment lock, `waiting` the queues of the waiting zone,
`queue` what the heads of the scheduler's queues reach and `size` their sizes. -/
@[ext] structure Junction (ι : Type) where
  holder : Segment → Option (Agent ι)
  waiting : VehicleType → List ι
  queue : VehicleType → List ι
  size : VehicleType → Nat
  sched : SchedPc ι
  pc : ι → VehiclePc
  numExitedV : Nat
  trace : List (Line ι)

namespace Junction
variable {ι : Type}

def boot : Junction ι where
  holder := fun _ => none
  waiting := fun _ => []
  queue := fun _ => []
  size := fun _ => 0
  sched := .iteration
  pc := fun _ => .start
  numExitedV := 0
  trace := []

def types : List VehicleType := [.ambulance,.car,.truck]

def setSched (s : Junction ι) (pc : SchedPc ι) : Junction ι := { s with sched := pc }

def setHolder (s : Junction ι) (g : Segment) (holder : Option (Agent ι)) : Junction ι :=
  { s with holder := update s.holder g holder }

def print (s : Junction ι) (line : Line ι) : Junction ι := { s with trace := s.trace ++ [line] }

def searchNext (s : Junction ι) : List VehicleType → SchedPc ι
  | [] => .iteration
  | type :: more => .search ⟨type,s.queue type,more⟩

def produce (s : Junction ι) (i : ι) (type : VehicleType) : Junction ι :=
  { s with waiting := update s.waiting type (s.waiting type ++ [i]) }

/-- `Queue_consume` from the waiting zone to the scheduler's queue of the same type. -/
def consume (s : Junction ι) (type : VehicleType) : Junction ι :=
  { s with
    queue := update s.queue type (s.queue type ++ s.waiting type)
    size := update s.size type (s.size type + (s.waiting type).length)
    waiting := update s.waiting type [] }

/-- `current` is taken off its queue: the head is left with what comes behind it. -/
def take (s : Junction ι) (pos : SearchPos ι) : Junction ι :=
  { s with queue := update s.queue pos.type pos.rest }

def wakeScheduler (s : Junction ι) : Junction ι :=
  s.setSched (match s.sched with
    | .asleep pos => .search pos
    | pc => pc)

variable [DecidableEq ι]

def canServe (s : Junction ι) (v : Vehicle) : Prop := ∀ g ∈ v.needs, s.holder g = some .scheduler

instance (s : Junction ι) (v : Vehicle) : Decidable (s.canServe v) :=
  inferInstanceAs (Decidable (∀ g ∈ v.needs, s.holder g = some .scheduler))

def setPc (s : Junction ι) (i : ι) (pc : VehiclePc) : Junction ι :=
  { s with pc := update s.pc i pc }

def unlock (s : Junction ι) (agent : Agent ι) (g : Segment) : Junction ι :=
  s.setHolder g (if s.holder g = some agent then none else s.holder g)

def tryLock (s : Junction ι) (g : Segment) : Junction ι :=
  s.setHolder g (if s.holder g = none then some .scheduler else s.holder g)

def wakeVehicle (s : Junction ι) (v : ι) (needs : List Segment) : Junction ι :=
  s.setPc v (if s.pc v = .asleep then .acquire needs else s.pc v)

end Junction

/-- After one of the segment locks has been acquired. -/
def VehiclePc.acquired : List Segment → VehiclePc
  | [] => .wakeup
  | todo => .acquire todo

/-- On to the next segment of the turn, or out of the intersection. -/
def VehiclePc.next : List Segment → VehiclePc
  | [] => .exited
  | g :: rest => .enter g rest

namespace Junction
variable {ι : Type} [DecidableEq ι]

/-- One step of the thread that runs `Schedule_vehicles`. -/
inductive Schedule (cars : ι → Vehicle) (nvehicles : Nat) : Junction ι → Junction ι → Prop where
  | iterate {s} : s.sched = .iteration → s.numExitedV < nvehicles →
      Schedule cars nvehicles s (s.setSched .sizes)
  | finish {s} : s.sched = .iteration → ¬ s.numExitedV < nvehicles →
      Schedule cars nvehicles s (s.setSched .finished)
  | idle {s} : s.sched = .sizes → (∀ type, s.size type = 0 ∧ s.waiting type = []) →
      Schedule cars nvehicles s (s.setSched .iteration)
  | work {s} : s.sched = .sizes → ¬ (∀ type, s.size type = 0 ∧ s.waiting type = []) →
      Schedule cars nvehicles s (s.setSched (.consume types))
  | consume {s} (type : VehicleType) (todo : List VehicleType) : s.sched = .consume (type :: todo) →
      Schedule cars nvehicles s ((s.consume type).setSched (.consume todo))
  | consumed {s} : s.sched = .consume [] →
      Schedule cars nvehicles s (s.setSched (.tryAcquire [.AB,.BC,.CA]))
  | tryAcquire {s} (g : Segment) (todo : List Segment) : s.sched = .tryAcquire (g :: todo) →
      Schedule cars nvehicles s ((s.tryLock g).setSched (.tryAcquire todo))
  | tried {s} : s.sched = .tryAcquire [] →
      Schedule cars nvehicles s (s.setSched (s.searchNext types))
  -- the search of one queue after the other
  | skip {s} (type : VehicleType) (v : ι) (rest : List ι) (more : List VehicleType) :
      s.sched = .search ⟨type,v :: rest,more⟩ → ¬ s.canServe (cars v) →
      Schedule cars nvehicles s (s.setSched (.search ⟨type,rest,more⟩))
  | serve {s} (type : VehicleType) (v : ι) (rest : List ι) (more : List VehicleType) :
      s.sched = .search ⟨type,v :: rest,more⟩ → s.canServe (cars v) →
      Schedule cars nvehicles s
        ((s.take ⟨type,rest,more⟩).setSched (.release (cars v).needs v ⟨type,rest,more⟩))
  | searched {s} (type : VehicleType) (more : List VehicleType) : s.sched = .search ⟨type,[],more⟩ →
      Schedule cars nvehicles s (s.setSched (s.searchNext more))
  | release {s} (g : Segment) (todo : List Segment) (v : ι) (pos : SearchPos ι) :
      s.sched = .release (g :: todo) v pos →
      Schedule cars nvehicles s ((s.unlock .scheduler g).setSched (.release todo v pos))
  | released {s} (v : ι) (pos : SearchPos ι) : s.sched = .release [] v pos →
      Schedule cars nvehicles s (s.setSched (.wakeup v pos))
  | wakeVehicle {s} (v : ι) (pos : SearchPos ι) : s.sched = .wakeup v pos →
      Schedule cars nvehicles s ((s.wakeVehicle v (cars v).needs).setSched (.sleep pos))
  | sleep {s} (pos : SearchPos ι) : s.sched = .sleep pos →
      Schedule cars nvehicles s (s.setSched (.asleep pos))

/-- One step of the thread that runs `approachintersection` for a vehicle. -/
inductive Approach (cars : ι → Vehicle) (i : ι) : Junction ι → Junction ι → Prop where
  | produce {s} : s.pc i = .start →
      Approach cars i s ((s.produce i (cars i).vehicleType).setPc i .produced)
  | arrive {s} : s.pc i = .produced → Approach cars i s (s.setPc i .arrived)
  | sleep {s} : s.pc i = .arrived → Approach cars i s (s.setPc i .asleep)
  | acquire {s} (g : Segment) (todo : List Segment) : s.pc i = .acquire (g :: todo) →
      s.holder g = none →
      Approach cars i s ((s.setHolder g (some (.vehicle i))).setPc i (.acquired todo))
  | wakeScheduler {s} : s.pc i = .wakeup → Approach cars i s (s.wakeScheduler.setPc i .turning)
  | turn {s} : s.pc i = .turning → Approach cars i s (s.setPc i (.next (cars i).needs))
  | enter {s} (g : Segment) (rest : List Segment) : s.pc i = .enter g rest →
      Approach cars i s ((s.print (.entered i g)).setPc i (.release g rest))
  | release {s} (g : Segment) (rest : List Segment) : s.pc i = .release g rest →
      Approach cars i s ((s.unlock (.vehicle i) g).setPc i (.leave g rest))
  | leave {s} (g : Segment) (rest : List Segment) : s.pc i = .leave g rest →
      Approach cars i s ((s.print (.left i g)).setPc i (.next rest))
  -- a scheduler that has finished keeps the lock of the counter
  | exit {s} : s.pc i = .exited → s.sched ≠ .finished →
      Approach cars i s ({ s with numExitedV := s.numExitedV + 1 }.setPc i .gone)

inductive Step (cars : ι → Vehicle) (nvehicles : Nat) (s t : Junction ι) : Prop where
  | schedule : Schedule cars nvehicles s t → Step cars nvehicles s t
  | approach (i : ι) : Approach cars i s t → Step cars nvehicles s t

end Junction

/-! The lists of the scheduler stand for the nodes of its queues -/

namespace Junction
variable {ι κ : Type}

structure Mirrors (lanes : Lanes ι κ) (q : κ) (current : Option ι) (s : Junction ι)
    (pos : SearchPos ι) : Prop where
  chained : lanes.Chained q (s.queue pos.type)
  here : Links.Heads lanes.next current pos.rest
  suffix : pos.rest <:+ s.queue pos.type
  iseg : ∀ g, lanes.iseg g = true ↔ s.holder g = some .scheduler

variable [DecidableEq ι] {cars : ι → Vehicle} {nvehicles : Nat}

theorem releases (cars : ι → Vehicle) (nvehicles : Nat) {s : Junction ι} {todo : List Segment}
    {v : ι} {pos : SearchPos ι} (here : s.sched = .release todo v pos) :
    ∃ t, Relation.ReflTransGen (Schedule cars nvehicles) s t ∧ t.sched = .wakeup v pos ∧
      t.queue = s.queue ∧
      ∀ g, t.holder g = some .scheduler ↔ s.holder g = some .scheduler ∧ g ∉ todo := by
  induction todo generalizing s with
  | nil => exact ⟨_,.single (.released v pos here),rfl,rfl,by simp [setSched]⟩
  | cons g todo ih =>
    obtain ⟨t,run,woken,queue,holder⟩ :=
      ih (s := (s.unlock .scheduler g).setSched (.release todo v pos)) rfl
    refine ⟨t,.head (.release g todo v pos here) run,woken,queue,fun g' => ?_⟩
    rw [holder]
    by_cases same : g' = g
    · by_cases held : s.holder g = some .scheduler <;>
        simp [setSched,unlock,setHolder,same,held]
    · simp [setSched,unlock,setHolder,same]

/-- One turn of the loop over the nodes is a run of the scheduler over the lists: it passes
by the vehicle, or takes it off the queue, releases its segments and is about to wake it. -/
theorem search_turn_refines [DecidableEq κ] {lanes : Lanes ι κ} {q : κ} {s : Junction ι}
    {type : VehicleType} {v : ι} {rest : List ι} {more : List VehicleType}
    (mirrors : Mirrors lanes q (some v) s ⟨type,v :: rest,more⟩)
    (at_ : s.sched = .search ⟨type,v :: rest,more⟩) (free : lanes.held (lanes.lock v) = false) :
    (Lanes.searchTurn cars q v).wp lanes
      (fun next lanes' => ∃ t, Relation.ReflTransGen (Schedule cars nvehicles) s t ∧
        (t.sched = .search ⟨type,rest,more⟩ ∨ t.sched = .wakeup v ⟨type,rest,more⟩) ∧
        Mirrors lanes' q next t ⟨type,rest,more⟩) never never := by
  have agree : (cars v).serviceable lanes.iseg = true ↔ s.canServe (cars v) := by
    simp [Vehicle.serviceable,canServe,mirrors.iseg]
  rw [Lanes.wp_searchTurn cars free]
  by_cases can : s.canServe (cars v)
  · obtain ⟨behind,onward⟩ := mirrors.chained.popped mirrors.here mirrors.suffix
    obtain ⟨t,run,woken,queue,holder⟩ := releases cars nvehicles
      (s := (s.take ⟨type,rest,more⟩).setSched (.release (cars v).needs v ⟨type,rest,more⟩)) rfl
    have left : t.queue type = rest := by simp [queue,setSched,take]
    refine ⟨t,.head (.serve type v rest more at_ can) run,.inr woken,?_⟩
    rw [if_pos (agree.2 can)]
    refine ⟨?_,onward,?_,fun g => ?_⟩
    · exact left.symm ▸ ⟨behind.chain,behind.tail⟩
    · exact left.symm ▸ List.suffix_rfl
    · rw [holder]
      simp [Lanes.serviced,without,mirrors.iseg,setSched,take]
  · rw [if_neg (mt agree.1 can)]
    exact ⟨_,.single (.skip type v rest more at_ can),.inl rfl,
      ⟨mirrors.chained.chain,mirrors.chained.tail⟩,(Links.heads_cons.1 mirrors.here).2,
      (List.suffix_cons v rest).trans mirrors.suffix,mirrors.iseg⟩

/-- A car behind the dummy head. -/
def oneCar : Lanes Bool Unit :=
  ⟨fun v => if v then none else some true,Bool.toNat,2,fun _ => false,fun _ => true,fun _ => 1,
    fun _ => false,fun _ => true,[]⟩

theorem search_turn_refines_oneCar : (Lanes.searchTurn (fun _ => ⟨.car,.A,.R⟩) () true).wp oneCar
    (fun next lanes => ∃ t : Junction Bool, Mirrors lanes () next t ⟨.car,[],[]⟩) never never := by
  have mirrors : Mirrors oneCar () (some true) { boot with
      holder := fun _ => some .scheduler, queue := fun _ => [true],
      sched := .search ⟨.car,[true],[]⟩ } ⟨.car,[true],[]⟩ :=
    ⟨⟨.cons (.cons .nil),rfl⟩,.cons .nil,List.suffix_rfl,fun _ => iff_of_true rfl rfl⟩
  exact wp_imp (@search_turn_refines _ _ _ _ 1 _ _ _ _ _ _ _ _ mirrors rfl rfl)
    fun _ _ ⟨t,_,_,after⟩ => ⟨t,after⟩

end Junction

/-! The hand-over of the intersection -/

def SchedPc.parked {ι : Type} : SchedPc ι → Bool
  | .sleep _ => true
  | .asleep _ => true
  | _ => false

def VehiclePc.handing : VehiclePc → Bool
  | .acquire _ => true
  | .wakeup => true
  | _ => false

/-- The scheduler gives up the segments of the vehicle that it has chosen, one by one, and no
one else has them when it wakes the vehicle. -/
def SchedPc.Giving {ι : Type} (cars : ι → Vehicle) (holder : Segment → Option (Agent ι)) :
    SchedPc ι → Prop
  | .release todo v _ => todo.Nodup ∧ (∀ g ∈ todo, holder g = some .scheduler) ∧
      ∀ g ∈ (cars v).needs, g ∉ todo → holder g = none
  | .wakeup v _ => ∀ g ∈ (cars v).needs, holder g = none
  | _ => True

theorem Vehicle.needs_nodup (v : Vehicle) : v.needs.Nodup := by
  obtain ⟨type,entrance,turn⟩ := v
  cases entrance <;> cases turn <;> simp [needs]

namespace Junction
variable {ι : Type}

theorem searchNext_awake (s : Junction ι) (more : List VehicleType) :
    (s.searchNext more).parked = false := by
  cases more <;> rfl

theorem searchNext_giving (s : Junction ι) (cars : ι → Vehicle)
    (holder : Segment → Option (Agent ι)) (more : List VehicleType) : (s.searchNext more).Giving cars holder := by
  cases more <;> trivial

variable {s : Junction ι}

theorem wakeScheduler_early (early : ∀ pos, s.sched ≠ .asleep pos) :
    s.wakeScheduler = s := by
  rw [wakeScheduler]
  split
  · exact absurd ‹_› (early _)
  · rfl

theorem tryLock_vehicle (g g' : Segment) (i : ι) :
    (s.tryLock g).holder g' = some (.vehicle i) ↔ s.holder g' = some (.vehicle i) := by
  by_cases same : g' = g
  · subst same
    cases held : s.holder g' <;> simp [tryLock,held,setHolder]
  · simp [tryLock,setHolder,same]

structure Awake (cars : ι → Vehicle) (s t : Junction ι) : Prop where
  before : s.sched.parked = false
  after : t.sched.parked = false
  pc : t.pc = s.pc
  trace : t.trace = s.trace
  vehicles : ∀ g i, t.holder g = some (.vehicle i) ↔ s.holder g = some (.vehicle i)
  giving : s.sched.Giving cars s.holder → t.sched.Giving cars t.holder

variable {cars : ι → Vehicle}

theorem Awake.move {t : Junction ι} (before : s.sched.parked = false)
    (after : t.sched.parked = false) (pc : t.pc = s.pc) (trace : t.trace = s.trace)
    (holder : t.holder = s.holder)
    (giving : s.sched.Giving cars s.holder → t.sched.Giving cars s.holder) : Awake cars s t :=
  ⟨before,after,pc,trace,fun _ _ => by rw [holder],by rwa [holder]⟩

variable [DecidableEq ι]
variable {v : ι}

theorem wakeVehicle_early {needs : List Segment}
    (early : s.pc v ≠ .asleep) : s.wakeVehicle v needs = s := by
  simp [wakeVehicle,early,setPc]

theorem wakeVehicle_asleep {needs : List Segment}
    (asleep : s.pc v = .asleep) : s.wakeVehicle v needs = s.setPc v (.acquire needs) := by
  simp [wakeVehicle,asleep]

theorem unlock_other {agent other : Agent ι} (g g' : Segment)
    (different : agent ≠ other) :
    (s.unlock agent g).holder g' = some other ↔ s.holder g' = some other := by
  by_cases same : g' = g
  · subst same
    by_cases held : s.holder g' = some agent
    · simp [unlock,held,setHolder,different]
    · simp [unlock,held,setHolder]
  · simp [unlock,setHolder,same]

theorem unlock_free (agent : Agent ι) (g : Segment) {g' : Segment}
    (free : s.holder g' = none) : (s.unlock agent g).holder g' = none := by
  by_cases same : g' = g
  · subst same
    simp [unlock,free,setHolder]
  · simpa [unlock,setHolder,same] using free

theorem unlock_own {agent : Agent ι} {g : Segment}
    (held : s.holder g = some agent) : (s.unlock agent g).holder g = none := by
  simp [unlock,held,setHolder]

theorem Awake.release {g : Segment} {todo : List Segment} {pos : SearchPos ι} (here : s.sched = .release (g :: todo) v pos) :
    Awake cars s ((s.unlock .scheduler g).setSched (.release todo v pos)) where
  before := by rw [here]; rfl
  after := rfl
  pc := rfl
  trace := rfl
  vehicles g' i := unlock_other g g' (by simp)
  giving := by
    rw [here]
    rintro ⟨distinct,held,given⟩
    rw [List.nodup_cons] at distinct
    rw [List.forall_mem_cons] at held
    refine ⟨distinct.2,fun g' member => ?_,fun g' member passed => ?_⟩
    · have apart : g' ≠ g := fun equal => distinct.1 (equal ▸ member)
      change (s.unlock .scheduler g).holder g' = _
      simpa [unlock,held.1,setHolder,apart] using held.2 g' member
    · by_cases same : g' = g
      · subst same
        exact unlock_own held.1
      · exact unlock_free _ _ (given g' member (by simp [same,passed]))

theorem Schedule.split {nvehicles : Nat} {t : Junction ι}
    (step : Schedule cars nvehicles s t) : Awake cars s t ∨
      (∃ v pos, s.sched = .wakeup v pos ∧
        t = (s.wakeVehicle v (cars v).needs).setSched (.sleep pos)) ∨
      ∃ pos, s.sched = .sleep pos ∧ t = s.setSched (.asleep pos) := by
  cases step with
  | iterate here | finish here | idle here | work here | consume _ _ here | consumed here
  | skip _ _ _ _ here =>
    exact .inl (.move (by rw [here]; rfl) rfl rfl rfl rfl fun _ => trivial)
  | tryAcquire g todo here =>
    exact .inl ⟨by rw [here]; rfl,rfl,rfl,rfl,tryLock_vehicle g,fun _ => trivial⟩
  | tried here =>
    exact .inl (.move (by rw [here]; rfl) (s.searchNext_awake types) rfl rfl rfl fun _ =>
      s.searchNext_giving cars _ types)
  | searched type more here =>
    exact .inl (.move (by rw [here]; rfl) (s.searchNext_awake more) rfl rfl rfl fun _ =>
      s.searchNext_giving cars _ more)
  | serve type v rest more here can =>
    exact .inl (.move (by rw [here]; rfl) rfl rfl rfl rfl fun _ =>
      ⟨Vehicle.needs_nodup _,can,fun g member passed => absurd member passed⟩)
  | release g todo v pos here => exact .inl (.release here)
  | released v pos here =>
    refine .inl (.move (by rw [here]; rfl) rfl rfl rfl rfl ?_)
    rw [here]
    exact fun given g member => given.2.2 g member List.not_mem_nil
  | wakeVehicle v pos here => exact .inr (.inl ⟨v,pos,here,rfl⟩)
  | sleep pos here => exact .inr (.inr ⟨pos,here,rfl⟩)

structure Gated (cars : ι → Vehicle) (s : Junction ι) : Prop where
  one : ∀ i j, (s.pc i).handing = true → (s.pc j).handing = true → i = j
  gate : ∀ i, (s.pc i).handing = true → s.sched.parked = true
  free : ∀ i todo, s.pc i = .acquire todo → todo.Nodup ∧ ∀ g ∈ todo, s.holder g = none
  giving : s.sched.Giving cars s.holder

namespace Gated
variable {cars : ι → Vehicle} {nvehicles : Nat} {s t : Junction ι}

omit [DecidableEq ι]

theorem of_quiet (quiet : ∀ i, (s.pc i).handing = false) (giving : s.sched.Giving cars s.holder) :
    Gated cars s where
  one i _ at_ := absurd at_ (by simp [quiet i])
  gate i at_ := absurd at_ (by simp [quiet i])
  free i todo at_ := absurd (quiet i) (by simp [at_,VehiclePc.handing])
  giving := giving

theorem boot : Gated cars (Junction.boot : Junction ι) := of_quiet (fun _ => rfl) trivial

theorem quiet (gated : Gated cars s) (awake : s.sched.parked = false) (i : ι) :
    (s.pc i).handing = false := by
  rw [Bool.eq_false_iff]
  intro at_
  simp [gated.gate i at_] at awake

theorem giving_parked {sched : SchedPc ι} {holder : Segment → Option (Agent ι)}
    (parked : sched.parked = true) : sched.Giving cars holder := by
  cases sched <;> simp_all [SchedPc.parked,SchedPc.Giving]

theorem giving_mono {sched : SchedPc ι} {holder holder' : Segment → Option (Agent ι)}
    (giving : sched.Giving cars holder) (free : ∀ g, holder g = none → holder' g = none)
    (own : ∀ g, holder g = some .scheduler → holder' g = some .scheduler) :
    sched.Giving cars holder' := by
  cases sched with
  | release todo v pos =>
    exact ⟨giving.1,fun g member => own g (giving.2.1 g member),
      fun g member passed => free g (giving.2.2 g member passed)⟩
  | wakeup v pos => exact fun g member => free g (giving g member)
  | _ => trivial

variable [DecidableEq ι]
variable {i : ι}

section
variable (gated : Gated cars s)
include gated

theorem drive {pc : VehiclePc} (sched : t.sched = s.sched)
    (pcs : t.pc = update s.pc i pc) (quiet : pc.handing = false)
    (free : ∀ g, s.holder g = none → t.holder g = none)
    (own : ∀ g, s.holder g = some .scheduler → t.holder g = some .scheduler) : Gated cars t := by
  -- whoever is handing now was handing before
  have earlier : ∀ j, (t.pc j).handing = true → t.pc j = s.pc j := by
    intro j at_
    by_cases same : j = i
    · simp [pcs,same,quiet] at at_
    · simp [pcs,same]
  refine ⟨fun j k atJ atK => ?_,fun j at_ => ?_,fun j todo at_ => ?_,?_⟩
  · exact gated.one j k (earlier j atJ ▸ atJ) (earlier k atK ▸ atK)
  · exact sched ▸ gated.gate j (earlier j at_ ▸ at_)
  · have before := gated.free j todo (earlier j (by rw [at_]; rfl) ▸ at_)
    exact ⟨before.1,fun g member => free g (before.2 g member)⟩
  · exact sched ▸ giving_mono gated.giving free own

theorem schedule (step : Schedule cars nvehicles s t) : Gated cars t := by
  obtain awake | ⟨v,pos,here,rfl⟩ | ⟨pos,here,rfl⟩ := step.split
  · exact of_quiet (fun i => by rw [awake.pc]; exact gated.quiet awake.before i)
      (awake.giving gated.giving)
  · have quiet := gated.quiet (by rw [here]; rfl)
    have given : ∀ g ∈ (cars v).needs, s.holder g = none := by
      simpa [here,SchedPc.Giving] using gated.giving
    by_cases asleep : s.pc v = .asleep
    · have only : ∀ i, (update s.pc v (.acquire (cars v).needs) i).handing = true →
          i = v := by
        intro i at_
        by_contra other
        simp [other,quiet i] at at_
      rw [wakeVehicle_asleep asleep]
      refine ⟨fun i j atI atJ => (only i atI).trans (only j atJ).symm,fun _ _ => rfl,?_,trivial⟩
      intro i todo at_
      change update s.pc v _ i = _ at at_
      obtain rfl := only i (by rw [at_]; rfl)
      obtain rfl : (cars i).needs = todo := by simpa using at_
      exact ⟨(cars i).needs_nodup,given⟩
    · rw [wakeVehicle_early asleep]
      exact of_quiet quiet trivial
  · exact ⟨gated.one,fun _ _ => rfl,gated.free,trivial⟩

theorem acquire {g : Segment} {todo : List Segment}
    (at_ : s.pc i = .acquire (g :: todo)) :
    Gated cars ((s.setHolder g (some (.vehicle i))).setPc i (.acquired todo)) := by
  have handing : (s.pc i).handing = true := by rw [at_]; rfl
  have only : ∀ j, (update s.pc i (.acquired todo) j).handing = true → j = i := by
    intro j atJ
    by_contra other
    exact other (gated.one j i (by simpa [other] using atJ) handing)
  have parked := gated.gate i handing
  have before := gated.free i _ at_
  rw [List.nodup_cons,List.forall_mem_cons] at before
  refine ⟨fun j k atJ atK => (only j atJ).trans (only k atK).symm,fun _ _ => parked,?_,
    giving_parked parked⟩
  intro j rest atJ
  change update s.pc i _ j = _ at atJ
  obtain rfl := only j (by rw [atJ]; rfl)
  obtain rfl : todo = rest := by
    cases todo with
    | nil => simp [VehiclePc.acquired] at atJ
    | cons => simpa [VehiclePc.acquired] using atJ
  refine ⟨before.1.2,fun g' member => ?_⟩
  have apart : g' ≠ g := fun equal => before.1.1 (equal ▸ member)
  simpa [setHolder,setPc,apart] using before.2.2 g' member

theorem wakeScheduler (at_ : s.pc i = .wakeup) :
    Gated cars (s.wakeScheduler.setPc i .turning) := by
  have handing : (s.pc i).handing = true := by rw [at_]; rfl
  have giving : s.wakeScheduler.sched.Giving cars s.holder := by
    by_cases asleep : ∃ pos, s.sched = .asleep pos
    · obtain ⟨pos,here⟩ := asleep
      simp [Junction.wakeScheduler,here,setSched,SchedPc.Giving]
    · rw [wakeScheduler_early (not_exists.1 asleep)]
      exact gated.giving
  refine of_quiet (fun j => ?_) giving
  change (update s.pc i _ j).handing = false
  by_cases same : j = i
  · simp [same,VehiclePc.handing]
  · simpa [same] using fun atJ => same (gated.one j i atJ handing)

theorem approach (step : Approach cars i s t) : Gated cars t := by
  cases step with
  | produce _ | arrive _ | sleep _ | enter _ _ _ | exit _ _ =>
    exact gated.drive rfl rfl rfl (fun _ h => h) (fun _ h => h)
  | turn _ =>
    exact gated.drive rfl rfl (by cases (cars i).needs <;> rfl) (fun _ h => h) (fun _ h => h)
  | leave g rest _ =>
    exact gated.drive rfl rfl (by cases rest <;> rfl) (fun _ h => h) (fun _ h => h)
  | acquire g todo at_ _ => exact gated.acquire at_
  | wakeScheduler at_ => exact gated.wakeScheduler at_
  | release g rest _ =>
    exact gated.drive rfl rfl rfl (fun _ => unlock_free _ g)
      (fun g' => (unlock_other g g' (by simp)).2)

theorem step (step : Step cars nvehicles s t) : Gated cars t := by
  cases step with
  | schedule step => exact gated.schedule step
  | approach i step => exact gated.approach step

end

end Gated

/-! Wakeups that come too early -/

end Junction

/-- The vehicle has yet to call `thread_wakeup` on the address of the scheduler. -/
def VehiclePc.yet : VehiclePc → Bool
  | .start | .produced | .arrived | .asleep | .acquire _ | .wakeup => true
  | _ => false

def VehiclePc.unsettled : VehiclePc → Nat
  | .start => 3
  | .produced => 2
  | .arrived => 1
  | _ => 0

theorem VehiclePc.yet_of_handing {pc : VehiclePc} (handing : pc.handing = true) :
    pc.yet = true := by
  cases pc with
  | acquire _ | wakeup => rfl
  | _ => cases handing

theorem VehiclePc.eq_asleep {pc : VehiclePc} (yet : pc.yet = true) (calm : pc.handing = false)
    (settled : pc.unsettled = 0) : pc = .asleep := by
  cases pc with
  | asleep => rfl
  | start | produced | arrived => cases settled
  | acquire _ | wakeup => cases calm
  | _ => cases yet

namespace Junction
variable {ι : Type} [DecidableEq ι]

/-- A `thread_wakeup` of the hand-over finds its thread not yet among the sleepers. -/
inductive Lost (cars : ι → Vehicle) : Junction ι → Junction ι → Prop where
  | wakeVehicle {s} (v : ι) (pos : SearchPos ι) : s.sched = .wakeup v pos → s.pc v ≠ .asleep →
      Lost cars s ((s.wakeVehicle v (cars v).needs).setSched (.sleep pos))
  | wakeScheduler {s} (i : ι) : s.pc i = .wakeup → (∀ pos, s.sched ≠ .asleep pos) →
      Lost cars s (s.wakeScheduler.setPc i .turning)

def Timely (cars : ι → Vehicle) (nvehicles : Nat) (s t : Junction ι) : Prop :=
  Step cars nvehicles s t ∧ ¬ Lost cars s t

/-- The scheduler sleeps in the hand-over, and whoever could still wake it sleeps as well. -/
def Stuck (s : Junction ι) : Prop :=
  (∃ pos, s.sched = .asleep pos) ∧ ∀ i, (s.pc i).yet = true → s.pc i = .asleep

def Attended (s : Junction ι) : Prop := s.sched.parked = true → ∃ i, (s.pc i).handing = true

variable {cars : ι → Vehicle} {nvehicles : Nat} {s t : Junction ι}

omit [DecidableEq ι] in
theorem Attended.not_stuck (attended : s.Attended) : ¬ s.Stuck := by
  rintro ⟨⟨pos,here⟩,sleeping⟩
  obtain ⟨i,handing⟩ := attended (by rw [here]; rfl)
  rw [sleeping i (VehiclePc.yet_of_handing handing)] at handing
  cases handing

variable {i : ι}

theorem Attended.drive (attended : s.Attended) {pc : VehiclePc} (sched : t.sched = s.sched)
    (pcs : t.pc = update s.pc i pc) (stays : (s.pc i).handing = true → pc.handing = true) :
    t.Attended := by
  intro parked
  obtain ⟨j,handing⟩ := attended (sched ▸ parked)
  refine ⟨j,?_⟩
  by_cases same : j = i
  · subst same
    simpa [pcs] using stays handing
  · simpa [pcs,same] using handing

theorem Attended.schedule (attended : s.Attended) (step : Schedule cars nvehicles s t)
    (timely : ¬ Lost cars s t) : t.Attended := by
  intro parked
  obtain awake | ⟨v,pos,here,rfl⟩ | ⟨pos,here,rfl⟩ := step.split
  · simp [awake.after] at parked
  · have asleep : s.pc v = .asleep := by
      by_contra early
      exact timely (.wakeVehicle v pos here early)
    rw [wakeVehicle_asleep asleep]
    exact ⟨v,by simp [setSched,setPc,VehiclePc.handing]⟩
  · exact attended (by rw [here]; rfl)

theorem Attended.approach (attended : s.Attended) (step : Approach cars i s t)
    (timely : ¬ Lost cars s t) : t.Attended := by
  cases step with
  | produce at_ | arrive at_ | sleep at_ | enter _ _ at_ | exit at_ _ | turn at_ | leave _ _ at_
  | release _ _ at_ =>
    exact attended.drive rfl rfl (by simp [at_,VehiclePc.handing])
  | acquire g todo at_ _ => exact attended.drive rfl rfl fun _ => by cases todo <;> rfl
  | wakeScheduler at_ =>
    -- the scheduler was asleep, and searches on
    obtain ⟨pos,here⟩ : ∃ pos, s.sched = .asleep pos := by
      by_contra! early
      exact timely (.wakeScheduler i at_ early)
    intro parked
    simp [wakeScheduler,here,setSched,setPc,SchedPc.parked] at parked

theorem Attended.step (attended : s.Attended) (step : Timely cars nvehicles s t) : t.Attended := by
  obtain ⟨step,timely⟩ := step
  cases step with
  | schedule step => exact attended.schedule step timely
  | approach i step => exact attended.approach step timely

theorem Attended.run (run : Relation.ReflTransGen (Timely cars nvehicles) s t)
    (attended : s.Attended) : t.Attended := by
  induction run with
  | refl => exact attended
  | tail _ last ih => exact ih.step last

theorem Lost.deserted (lost : Lost cars s t) (gated : Gated cars s) :
    (∃ pos, t.sched = .sleep pos) ∧ ∀ i, (t.pc i).handing = false := by
  cases lost with
  | wakeVehicle v pos here early =>
    have quiet := gated.quiet (by rw [here]; rfl)
    rw [wakeVehicle_early early]
    exact ⟨⟨pos,rfl⟩,quiet⟩
  | wakeScheduler i at_ early =>
    have handing : (s.pc i).handing = true := by rw [at_]; rfl
    rw [wakeScheduler_early early]
    constructor
    · have parked := gated.gate i handing
      change ∃ pos, s.sched = _
      cases here : s.sched with
      | sleep pos => exact ⟨pos,rfl⟩
      | asleep pos => exact absurd here (early pos)
      | _ => simp [here,SchedPc.parked] at parked
    · intro j
      by_cases same : j = i
      · simp [same,setPc,VehiclePc.handing]
      · simpa [same,setPc] using fun other => same (gated.one j i other handing)

theorem not_lost (asleep : ∀ v pos, s.sched = .wakeup v pos → s.pc v = .asleep)
    (quiet : ∀ i, (s.pc i).handing = false) : ¬ Lost cars s t := by
  intro lost
  cases lost with
  | wakeVehicle v pos here early => exact early (asleep v pos here)
  | wakeScheduler i at_ _ => simpa [at_,VehiclePc.handing] using quiet i

theorem Schedule.timely (step : Schedule cars nvehicles s t) (awake : t.sched.parked = false)
    (quiet : ∀ i, (s.pc i).handing = false) : Timely cars nvehicles s t := by
  refine ⟨.schedule step,fun lost => ?_⟩
  cases lost with
  | wakeVehicle v pos _ _ => exact Bool.noConfusion awake
  | wakeScheduler i at_ _ => simpa [at_,VehiclePc.handing] using quiet i

theorem Timely.steps (run : Relation.ReflTransGen (Timely cars nvehicles) s t) :
    Relation.ReflTransGen (Step cars nvehicles) s t := by
  induction run with
  | refl => exact .refl
  | tail _ last ih => exact ih.tail last.1

def opened (s : Junction ι) : Junction ι :=
  let taken := types.foldl consume s
  ([Segment.AB,.BC,.CA].foldl tryLock taken).setSched (taken.searchNext types)

theorem opens (here : s.sched = .iteration) (fewer : s.numExitedV < nvehicles)
    (work : ¬ ∀ type, s.size type = 0 ∧ s.waiting type = [])
    (quiet : ∀ i, (s.pc i).handing = false) :
    Relation.ReflTransGen (Timely cars nvehicles) s s.opened := by
  have looked := Relation.ReflTransGen.single (r := Timely cars nvehicles)
    (Schedule.timely (.iterate here fewer) rfl quiet) |>.tail (Schedule.timely (.work rfl work) rfl quiet)
  have consumed := looked.tail (Schedule.timely (.consume .ambulance _ rfl) rfl quiet)
    |>.tail (Schedule.timely (.consume .car _ rfl) rfl quiet)
    |>.tail (Schedule.timely (.consume .truck _ rfl) rfl quiet)
    |>.tail (Schedule.timely (.consumed rfl) rfl quiet)
  exact consumed.tail (Schedule.timely (.tryAcquire .AB _ rfl) rfl quiet)
    |>.tail (Schedule.timely (.tryAcquire .BC _ rfl) rfl quiet)
    |>.tail (Schedule.timely (.tryAcquire .CA _ rfl) rfl quiet)
    |>.tail (Schedule.timely (.tried rfl) rfl quiet)

/-! No circular wait -/

/-- One thread waits in `lock_acquire` for a segment lock that another holds. Only vehicles
call `lock_acquire` on a segment lock. -/
def Waits (s : Junction ι) (waiter owner : Agent ι) : Prop :=
  ∃ i g todo, waiter = .vehicle i ∧ s.pc i = .acquire (g :: todo) ∧ s.holder g = some owner

omit [DecidableEq ι] in
theorem Gated.not_waits (gated : Gated cars s)
    (waiter owner : Agent ι) : ¬ s.Waits waiter owner := by
  rintro ⟨i,g,todo,-,at_,held⟩
  have free := (gated.free i _ at_).2 g List.mem_cons_self
  simp [free] at held

/-- No thread is in a cycle of threads of which each waits for a segment lock that the next
one holds. -/
theorem no_circular_wait (cars : ι → Vehicle) (nvehicles : Nat) {s : Junction ι}
    (run : Relation.ReflTransGen (Step cars nvehicles) boot s) (agent : Agent ι) :
    ¬ Relation.TransGen s.Waits agent agent := by
  intro cycle
  have gated := Run.keeps (fun _ _ kept step => Gated.step kept step) run Gated.boot
  obtain ⟨owner,waits,-⟩ := Relation.TransGen.head'_iff.1 cycle
  exact gated.not_waits agent owner waits

def leftTurners (i : Fin 3) : Vehicle :=
  ⟨.car,match i with | 0 => .A | 1 => .B | 2 => .C,.L⟩

theorem no_circular_wait_left : ∃ s : Junction (Fin 3), s.pc 0 = .acquire [.BC] ∧
    s.holder .AB = some (.vehicle 0) ∧ ∀ agent, ¬ Relation.TransGen s.Waits agent agent := by
  have queued : Relation.ReflTransGen (Step leftTurners 3) boot _ :=
    Relation.ReflTransGen.single (.approach 0 (.produce rfl))
      |>.tail (.approach 0 (.arrive rfl)) |>.tail (.approach 0 (.sleep rfl))
      |>.tail (.approach 1 (.produce rfl)) |>.tail (.approach 1 (.arrive rfl))
      |>.tail (.approach 1 (.sleep rfl)) |>.tail (.approach 2 (.produce rfl))
      |>.tail (.approach 2 (.arrive rfl)) |>.tail (.approach 2 (.sleep rfl))
  have opened := queued.trans (Timely.steps (opens rfl (by decide)
    (fun idle => List.cons_ne_nil _ _ (idle .car).2) (by decide)))
  have woken := opened.tail (.schedule (.searched .ambulance _ rfl))
    |>.tail (.schedule (.serve .car 0 _ _ rfl (by decide)))
    |>.tail (.schedule (.release .AB _ _ _ rfl)) |>.tail (.schedule (.release .BC _ _ _ rfl))
    |>.tail (.schedule (.released _ _ rfl)) |>.tail (.schedule (.wakeVehicle _ _ rfl))
    |>.tail (.schedule (.sleep _ rfl)) |>.tail (.approach 0 (.acquire .AB _ rfl rfl))
  exact ⟨_,rfl,rfl,no_circular_wait leftTurners 3 woken⟩

/-! A hand-over that gets stuck -/

theorem settle_one (some : 0 < (s.pc i).unsettled) :
    ∃ t pc, Approach cars i s t ∧ t.sched = s.sched ∧ t.pc = update s.pc i pc ∧
      pc.handing = false ∧ pc.unsettled < (s.pc i).unsettled := by
  cases at_ : s.pc i with
  | start => exact ⟨_,_,.produce at_,rfl,rfl,rfl,by decide⟩
  | produced => exact ⟨_,_,.arrive at_,rfl,rfl,rfl,by decide⟩
  | arrived => exact ⟨_,_,.sleep at_,rfl,rfl,rfl,by decide⟩
  | _ => simp [at_,VehiclePc.unsettled] at some

variable [Fintype ι]

theorem settle (asleep : ∃ pos, s.sched = .asleep pos) (quiet : ∀ i, (s.pc i).handing = false) :
    ∃ t, Relation.ReflTransGen (Timely cars nvehicles) s t ∧ t.Stuck := by
  let size := fun u : Junction ι => Crowd.total VehiclePc.unsettled u.pc
  have all : ∃ t, Relation.ReflTransGen (Timely cars nvehicles) s t ∧
      ((∃ pos, t.sched = .asleep pos) ∧ ∀ i, (t.pc i).handing = false) ∧ size t = 0 := by
    refine Run.descend size (fun u kept left => ?_) ⟨asleep,quiet⟩
    obtain ⟨⟨pos,here⟩,quiet⟩ := kept
    obtain ⟨i,some⟩ := Crowd.exists_of_total_pos (Nat.pos_of_ne_zero left)
    obtain ⟨t,pc,step,sched,pcs,calm,less⟩ := settle_one some
    refine ⟨t,.single ⟨.approach i step,not_lost (by simp [here]) quiet⟩,
      ⟨⟨pos,sched.trans here⟩,?_⟩,?_⟩
    · rw [pcs,forall_update_iff u.pc fun _ pc => pc.handing = false]
      exact ⟨calm,fun j _ => quiet j⟩
    · have moved := Crowd.total_update VehiclePc.unsettled u.pc i pc
      simp only [size,pcs]
      omega
  obtain ⟨t,run,⟨asleep',quiet'⟩,settled⟩ := all
  exact ⟨t,run,asleep',fun i yet =>
    VehiclePc.eq_asleep yet (quiet' i) (Crowd.total_eq_zero.mp settled i)⟩

/-- As long as no wakeup has been lost the hand-over is not stuck, and the next step keeps it
so, whatever follows, if and only if it loses no wakeup. -/
theorem hand_over_iff {cars : ι → Vehicle} {nvehicles : Nat} {s t : Junction ι}
    (run : Relation.ReflTransGen (Timely cars nvehicles) boot s) (step : Step cars nvehicles s t) :
    ¬ s.Stuck ∧
      ((∀ u, Relation.ReflTransGen (Timely cars nvehicles) t u → ¬ u.Stuck) ↔ ¬ Lost cars s t) := by
  have gated : Gated cars s := Run.keeps (fun _ _ kept step => kept.step step.1) run Gated.boot
  have attended : s.Attended := Attended.run run (by simp [Attended,boot,SchedPc.parked])
  refine ⟨attended.not_stuck,fun safe lost => ?_,fun timely u onward => ?_⟩
  · obtain ⟨⟨pos,here⟩,quiet⟩ := lost.deserted gated
    have asleep : Timely cars nvehicles t (t.setSched (.asleep pos)) :=
      ⟨.schedule (.sleep pos here),not_lost (by simp [here]) quiet⟩
    obtain ⟨u,onward,stuck⟩ := settle (s := t.setSched (.asleep pos)) ⟨pos,rfl⟩ quiet
    exact safe u (.head asleep onward) stuck
  · have next := attended.step ⟨step,timely⟩
    exact (Attended.run onward next).not_stuck

def car : Vehicle := ⟨.car,.A,.R⟩

theorem chosen {s : Junction (Fin 1)} (here : s.sched = .iteration) (exited : s.numExitedV = 0)
    (waiting : s.waiting = fun type => if type = .car then [0] else [])
    (queue : s.queue = fun _ => []) (free : s.holder = fun _ => none)
    (quiet : ∀ i, (s.pc i).handing = false) :
    ∃ t, Relation.ReflTransGen (Timely (fun _ : Fin 1 => car) 1) s t ∧ t.pc = s.pc ∧
      t.queue .car = [] ∧ t.sched = .wakeup 0 ⟨.car,[],[.truck]⟩ := by
  have work : ¬ ∀ type, s.size type = 0 ∧ s.waiting type = [] := by
    intro idle
    simpa [waiting] using (idle .car).2
  have opened : Relation.ReflTransGen (Timely (fun _ : Fin 1 => car) 1) s s.opened :=
    opens here (by omega) work quiet
  obtain ⟨holder,waiting',queue',size,sched,pc,exits,trace⟩ := s
  cases waiting
  cases queue
  cases free
  exact ⟨_,opened.tail (Schedule.timely (.searched .ambulance _ rfl) rfl quiet)
    |>.tail (Schedule.timely (.serve .car 0 _ _ rfl (List.forall_mem_singleton.2 rfl)) rfl quiet)
    |>.tail (Schedule.timely (.release .AB _ _ _ rfl) rfl quiet)
    |>.tail (Schedule.timely (.released _ _ rfl) rfl quiet),rfl,rfl,rfl⟩

/-- The car sleeps when the scheduler wakes it. -/
theorem hand_over_asleep : ∃ s t : Junction (Fin 1),
    s.sched = .wakeup 0 ⟨.car,[],[.truck]⟩ ∧ s.pc 0 = .asleep ∧ Step (fun _ => car) 1 s t ∧
      ∀ u, Relation.ReflTransGen (Timely (fun _ => car) 1) t u → ¬ u.Stuck := by
  have calm {pc : VehiclePc} {s : Junction (Fin 1)} (at_ : s.pc 0 = pc) (quiet : pc.handing = false)
      (i : Fin 1) : (s.pc i).handing = false := by
    cases Subsingleton.elim i 0
    rwa [at_]
  have queued : Relation.ReflTransGen (Timely (fun _ : Fin 1 => car) 1) boot _ :=
    Relation.ReflTransGen.single ⟨.approach 0 (.produce rfl),not_lost (by simp [boot]) fun _ => rfl⟩
      |>.tail ⟨.approach 0 (.arrive rfl),not_lost (by simp [boot,produce,setPc]) (calm rfl rfl)⟩
      |>.tail ⟨.approach 0 (.sleep rfl),not_lost (by simp [boot,produce,setPc]) (calm rfl rfl)⟩
  obtain ⟨s,run,pc,-,here⟩ := chosen rfl rfl (funext fun type => by cases type <;> rfl) rfl rfl
    (calm (s := ((((boot.produce 0 .car).setPc 0 .produced).setPc 0 .arrived).setPc 0 .asleep)) rfl rfl)
  have at_ : s.pc 0 = .asleep := by rw [pc]; rfl
  have step : Step (fun _ => car) 1 s _ := .schedule (.wakeVehicle _ _ here)
  refine ⟨s,_,here,at_,step,(hand_over_iff (queued.trans run) step).2.2 (not_lost ?_ (calm at_ rfl))⟩
  intro v _ _
  cases Subsingleton.elim v 0
  exact at_

/-- The scheduler wakes a car that has not yet fallen asleep. -/
theorem hand_over_early : ∃ s : Junction (Fin 1),
    Relation.ReflTransGen (Step (fun _ => car) 1) boot s ∧ s.queue .car = [] ∧ s.Stuck := by
  have produced : Step (fun _ : Fin 1 => car) 1 boot _ := .approach 0 (.produce rfl)
  obtain ⟨t,run,pc,queue,here⟩ := chosen (s := (boot.produce 0 .car).setPc 0 .produced) rfl rfl
    (funext fun type => by cases type <;> rfl) rfl rfl
    (fun i => by cases Subsingleton.elim i 0; rfl)
  have at_ : t.pc 0 = .produced := by rw [pc]; rfl
  have whole := Relation.ReflTransGen.head produced (Timely.steps run)
    |>.tail (.schedule (.wakeVehicle _ _ here))
  rw [wakeVehicle_early (by simp [at_])] at whole
  refine ⟨_,whole.tail (.schedule (.sleep _ rfl)) |>.tail (.approach 0 (.arrive at_))
    |>.tail (.approach 0 (.sleep rfl)),queue,⟨_,rfl⟩,fun i _ => ?_⟩
  cases Subsingleton.elim i 0
  rfl

end Junction
end Os161
