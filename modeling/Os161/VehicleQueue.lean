import Os161.Exec
import Os161.Links

/-! The vehicle queues of `asst1/stoplight.c`: linked lists behind a dummy head, with a lock
in every node, as one thread sees them while no other thread holds a node lock. A thread
that asks for a lock it holds already sleeps in `lock_acquire` for good. -/
namespace Os161

open Function

inductive Direction where
  | A | B | C
  deriving DecidableEq, Repr

inductive TurnDirection where
  | R | L
  deriving DecidableEq, Repr

inductive VehicleType where
  | ambulance | car | truck
  deriving DecidableEq, Repr

inductive Segment where
  | AB | BC | CA
  deriving DecidableEq, Repr

/-- The fields of a vehicle that stay as `Vehicle_create` sets them. -/
structure Vehicle where
  vehicleType : VehicleType
  entrance : Direction
  turndirection : TurnDirection
  deriving DecidableEq, Repr

namespace Vehicle

def needs (v : Vehicle) : List Segment :=
  match v.entrance, v.turndirection with
  | .A, .L => [.AB,.BC]
  | .A, .R => [.AB]
  | .B, .L => [.BC,.CA]
  | .B, .R => [.BC]
  | .C, .L => [.CA,.AB]
  | .C, .R => [.CA]

/-- `lock_do_i_hold` on every segment of the turn. -/
def serviceable (v : Vehicle) (iseg : Segment → Bool) : Bool := v.needs.all iseg

end Vehicle

def without (iseg : Segment → Bool) (needs : List Segment) : Segment → Bool :=
  fun g => iseg g && !needs.contains g

inductive StoplightError where
  | nullPointer | lockCreationFailed | queueEmpty
  deriving DecidableEq, Repr

/-- Why a call does not return: it waits for a lock of its own, or its loop goes on. -/
inductive StoplightHang where
  | blocked (lock : Nat) | endless
  deriving DecidableEq, Repr

/-- The nodes and queues. `lock` numbers the lock of each node, `locks` counts the locks
made; `held` and `iseg` are the node locks and segment locks of the calling thread, and
`woken` lists the vehicles that it has handed the intersection to. -/
structure Lanes (ι κ : Type) where
  next : ι → Option ι
  lock : ι → Nat
  locks : Nat
  head : κ → ι
  tail : κ → ι
  size : κ → Nat
  held : Nat → Bool
  iseg : Segment → Bool
  woken : List ι

abbrev Lane (ι κ α : Type) := Exec (Lanes ι κ) StoplightError StoplightHang α

namespace Lanes
variable {ι κ : Type} [DecidableEq ι] [DecidableEq κ]

def setNext (s : Lanes ι κ) (v : ι) (target : Option ι) : Lanes ι κ :=
  { s with next := update s.next v target }

def setTail (s : Lanes ι κ) (q : κ) (v : ι) : Lanes ι κ :=
  { s with tail := update s.tail q v }

def setSize (s : Lanes ι κ) (q : κ) (n : Nat) : Lanes ι κ :=
  { s with size := update s.size q n }

def setHeld (s : Lanes ι κ) (l : Nat) (held : Bool) : Lanes ι κ :=
  { s with held := update s.held l held }

def lockAcquire (l : Nat) : Lane ι κ Unit := do
  let s ← read
  if s.held l then panic (.blocked l) else put (s.setHeld l true)

/-- `lock_acquire` on a lock that is always available. -/
def lockAvailable (l : Nat) : Lane ι κ Unit := modify fun s => s.setHeld l true

/-- `lock_release`; without the lock it does nothing. -/
def lockRelease (l : Nat) : Lane ι κ Unit := modify fun s => s.setHeld l false

/-- `q->tail->next = vehicle; q->tail = vehicle;` -/
def link (s : Lanes ι κ) (q : κ) (v : ι) : Lanes ι κ := (s.setNext (s.tail q) (some v)).setTail q v

/-! The queue functions, for a given way to take a node lock -/

section Acquire
variable (acquire : Nat → Lane ι κ Unit)

/-- `created` tells whether `lock_create` succeeds. If not, the vehicle is freed. -/
def queueEnqueueWith (created : Bool) : Option κ → Option ι → Lane ι κ Unit
  | some q, some v => do
    modify fun s => s.setNext v none
    if created then
      modify fun s => { s with lock := update s.lock v s.locks, locks := s.locks + 1 }
      let s ← read
      acquire (s.lock (s.tail q))
      modify fun s => (s.link q v).setSize q (s.size q + 1)
      let s ← read
      lockRelease (s.lock (s.tail q))
    else fail .lockCreationFailed
  | _, _ => fail .nullPointer

def queueProduceWith : Option κ → Option ι → Lane ι κ Nat
  | some q, some v => do
    modify fun s => s.setNext v none
    let s ← read
    acquire (s.lock (s.tail q))
    modify fun s => s.link q v
    let s ← read
    lockRelease (s.lock (s.tail q))
    modify fun s => s.setSize q (s.size q + 1)
    let s ← read
    pure (s.size q)
  | _, _ => fail .nullPointer

/-- The code that takes `current` off a queue, behind the head. The result is the local
`next`. -/
def pop (q : κ) (current : ι) : Lane ι κ (Option ι) := do
  modify fun s => s.setNext (s.head q) (s.next current)
  modify fun s => if s.tail q = current then s.setTail q (s.head q) else s
  let s ← read
  modify fun s => s.setNext current none
  pure (s.next current)

def consumeLoopWith (pq dq : κ) : Nat → Option ι → Lane ι κ Unit
  | _, none => pure ()
  | 0, some _ => panic .endless
  | fuel + 1, some current => do
    let s ← read
    acquire (s.lock current)
    let next ← pop pq current
    lockRelease (s.lock current)
    let _ ← attempt (queueProduceWith acquire (some dq) (some current))
    consumeLoopWith pq dq fuel next

def queueConsumeWith (fuel : Nat) : Option κ → Option κ → Lane ι κ Unit
  | some pq, some dq => do
    let s ← read
    if s.size pq = 0 then fail .queueEmpty
    else
      acquire (s.lock (s.head pq))
      acquire (s.lock (s.head dq))
      let s ← read
      consumeLoopWith acquire pq dq fuel (s.next (s.head pq))
      lockRelease (s.lock (s.head dq))
      modify fun s => s.setSize pq 0
      lockRelease (s.lock (s.head pq))
  | _, _ => fail .nullPointer

def releaseIseg (s : Lanes ι κ) (needs : List Segment) : Lanes ι κ :=
  { s with iseg := without s.iseg needs }

/-- One turn of the loop of the search. The branches for the six turns differ only in the
segments. `thread_wakeup` and `thread_sleep` hand the intersection over, and the thread goes
on when the vehicle has taken the locks. -/
def searchTurnWith (cars : ι → Vehicle) (q : κ) (current : ι) : Lane ι κ (Option ι) := do
  let s ← read
  acquire (s.lock current)
  if (cars current).serviceable s.iseg then
    let next ← pop q current
    lockRelease (s.lock current)
    modify fun s => s.releaseIseg (cars current).needs
    modify fun s => { s with woken := s.woken ++ [current] }
    pure next
  else
    -- the vehicle stays, and so does the lock on its node
    pure (s.next current)

def searchLoopWith (cars : ι → Vehicle) (q : κ) : Nat → Option ι → Lane ι κ Unit
  | _, none => pure ()
  | 0, some _ => panic .endless
  | fuel + 1, some current => do
    searchLoopWith cars q fuel (← searchTurnWith acquire cars q current)

/-- `Scheduler_search_for_next_serviceable_vehicle` -/
def schedulerSearchWith (cars : ι → Vehicle) (fuel : Nat) : Option κ → Lane ι κ Unit
  | some q => do
    let s ← read
    acquire (s.lock (s.head q))
    let s ← read
    searchLoopWith acquire cars q fuel (s.next (s.head q))
    lockRelease (s.lock (s.head q))
  | none => fail .nullPointer

end Acquire

/-! The same with `lock_acquire` as it is -/

def queueEnqueue (created : Bool) : Option κ → Option ι → Lane ι κ Unit :=
  queueEnqueueWith lockAcquire created

def queueProduce : Option κ → Option ι → Lane ι κ Nat := queueProduceWith lockAcquire

def consumeLoop (pq dq : κ) : Nat → Option ι → Lane ι κ Unit := consumeLoopWith lockAcquire pq dq

def queueConsume (fuel : Nat) : Option κ → Option κ → Lane ι κ Unit := queueConsumeWith lockAcquire fuel

def searchTurn (cars : ι → Vehicle) (q : κ) (current : ι) : Lane ι κ (Option ι) :=
  searchTurnWith lockAcquire cars q current

def searchLoop (cars : ι → Vehicle) (q : κ) : Nat → Option ι → Lane ι κ Unit :=
  searchLoopWith lockAcquire cars q

def schedulerSearch (cars : ι → Vehicle) (fuel : Nat) : Option κ → Lane ι κ Unit :=
  schedulerSearchWith lockAcquire cars fuel

theorem consumeLoop_succ (pq dq : κ) (fuel : Nat) (current : ι) :
    (consumeLoop pq dq (fuel + 1) (some current) : Lane ι κ Unit) = (do
      let s ← read
      lockAcquire (s.lock current)
      let next ← pop pq current
      lockRelease (s.lock current)
      let _ ← attempt (queueProduce (some dq) (some current))
      consumeLoop pq dq fuel next) := rfl

theorem searchLoop_succ (cars : ι → Vehicle) (q : κ) (fuel : Nat) (current : ι) :
    (searchLoop cars q (fuel + 1) (some current) : Lane ι κ Unit) =
      (do searchLoop cars q fuel (← searchTurn cars q current)) := rfl

end Lanes

/-! Single operations -/

namespace Lanes
variable {ι κ : Type}

section
variable {s : Lanes ι κ} {err : StoplightError → Lanes ι κ → Prop}
  {halt : StoplightHang → Lanes ι κ → Prop}

variable {ok : Unit → Lanes ι κ → Prop}

theorem wp_lockAcquire_free {l : Nat} (free : s.held l = false) :
    (lockAcquire l : Lane ι κ Unit).wp s ok err halt ↔ ok () (s.setHeld l true) := by
  simp [lockAcquire,free]

theorem wp_lockAcquire_held {l : Nat} (held : s.held l = true) :
    (lockAcquire l : Lane ι κ Unit).wp s ok err halt ↔ halt (.blocked l) s := by
  simp [lockAcquire,held]

@[simp] theorem wp_lockAvailable (l : Nat) :
    (lockAvailable l : Lane ι κ Unit).wp s ok err halt ↔ ok () (s.setHeld l true) := Iff.rfl

@[simp] theorem wp_lockRelease (l : Nat) :
    (lockRelease l : Lane ι κ Unit).wp s ok err halt ↔ ok () (s.setHeld l false) := Iff.rfl

variable [DecidableEq ι] [DecidableEq κ]

def popped (s : Lanes ι κ) (q : κ) (current : ι) : Lanes ι κ :=
  { s with
    next := update (update s.next (s.head q) (s.next current)) current none
    tail := if s.tail q = current then update s.tail q (s.head q) else s.tail }

theorem wp_pop {ok : Option ι → Lanes ι κ → Prop} {q : κ} {current : ι} :
    (pop q current : Lane ι κ (Option ι)).wp s ok err halt ↔
      ok (s.next current) (s.popped q current) := by
  have local_ : update s.next (s.head q) (s.next current) current = s.next current := by
    by_cases same : current = s.head q
    · rw [← same,update_self]
    · rw [update_of_ne same]
  by_cases last : s.tail q = current
  · simp [pop,popped,setNext,setTail,last,local_]
  · simp [pop,popped,setNext,last,local_]

end

/-! What a queue holds -/

structure Chained (s : Lanes ι κ) (q : κ) (xs : List ι) : Prop where
  chain : Links.Heads s.next (some (s.head q)) (s.head q :: xs)
  tail : s.tail q = xs.getLastD (s.head q)

structure Holds (s : Lanes ι κ) (q : κ) (xs : List ι) : Prop extends Chained s q xs where
  size : s.size q = xs.length

theorem Chained.first {s : Lanes ι κ} {q : κ} {xs : List ι} (chained : s.Chained q xs) :
    Links.Heads s.next (s.next (s.head q)) xs := (Links.heads_cons.1 chained.chain).2

section
variable [DecidableEq ι] [DecidableEq κ]

theorem Chained.popped {s : Lanes ι κ} {q : κ} {reach rest : List ι} {current : ι}
    (chained : s.Chained q reach) (here : Links.Heads s.next (some current) (current :: rest))
    (suffix : current :: rest <:+ reach) :
    (s.popped q current).Chained q rest ∧
      Links.Heads (s.popped q current).next (s.next current) rest := by
  have outside := (List.nodup_cons.1 chained.chain.nodup).1
  have behind := List.nodup_cons.1 here.nodup
  have apart : s.head q ≠ current := fun equal =>
    outside (suffix.subset (equal ▸ List.mem_cons_self))
  have same : ∀ x ∈ rest, (s.popped q current).next x = s.next x := by
    intro x member
    have notCurrent : x ≠ current := fun equal => behind.1 (equal ▸ member)
    have notHead : x ≠ s.head q := fun equal =>
      outside (suffix.subset (List.mem_cons_of_mem _ (equal ▸ member)))
    simp [Lanes.popped,notCurrent,notHead]
  have onward : Links.Heads (s.popped q current).next (s.next current) rest :=
    (Links.heads_cons.1 here).2.congr same
  refine ⟨⟨.cons ?_,?_⟩,onward⟩
  · simpa [Lanes.popped,apart] using onward
  · -- the tail moves only if the vehicle was the last one
    obtain ⟨before,rfl⟩ := suffix
    have tail := chained.tail
    cases rest with
    | nil => simp [Lanes.popped,tail]
    | cons second rest =>
      rw [Links.getLastD_append_cons,List.getLastD_cons] at tail
      have differ : s.tail q ≠ current := by
        rw [tail]
        exact fun equal => behind.1 (equal ▸ List.getLastD_mem_cons)
      simp only [Lanes.popped,if_neg differ]
      rw [tail,List.getLastD_cons]

theorem Chained.linked {s : Lanes ι κ} {q : κ} {xs : List ι} {v : ι} (chained : s.Chained q xs)
    (fresh : v ∉ s.head q :: xs) : ((s.setNext v none).link q v).Chained q (xs ++ [v]) := by
  refine ⟨?_,?_⟩
  · have longer := chained.chain.snoc fresh
    rw [← chained.tail] at longer
    exact longer
  · rw [List.getLastD_concat]
    exact update_self _ _ _

end

/-! The search -/

section Search
variable (cars : ι → Vehicle)

def served : (Segment → Bool) → List ι → List ι
  | _, [] => []
  | iseg, v :: rest =>
    if (cars v).serviceable iseg then v :: served (without iseg (cars v).needs) rest
    else served iseg rest

def skipped : (Segment → Bool) → List ι → List ι
  | _, [] => []
  | iseg, v :: rest =>
    if (cars v).serviceable iseg then skipped (without iseg (cars v).needs) rest
    else v :: skipped iseg rest

def leftover : (Segment → Bool) → List ι → List ι → List ι
  | _, reach, [] => reach
  | iseg, reach, v :: rest =>
    if (cars v).serviceable iseg then leftover (without iseg (cars v).needs) rest rest
    else leftover iseg reach rest

theorem served_subset (iseg : Segment → Bool) (xs : List ι) : served cars iseg xs ⊆ xs := by
  induction xs generalizing iseg with
  | nil => exact List.Subset.refl _
  | cons v rest ih =>
    rw [served]
    split
    · exact List.cons_subset_cons v (ih _)
    · exact fun x member => List.mem_cons_of_mem v (ih _ member)

theorem skipped_subset (iseg : Segment → Bool) (xs : List ι) : skipped cars iseg xs ⊆ xs := by
  induction xs generalizing iseg with
  | nil => exact List.Subset.refl _
  | cons v rest ih =>
    rw [skipped]
    split
    · exact fun x member => List.mem_cons_of_mem v (ih _ member)
    · exact List.cons_subset_cons v (ih _)

variable {xs : List ι}

theorem served_eq_nil {iseg : Segment → Bool} :
    served cars iseg xs = [] ↔ ∀ v ∈ xs, (cars v).serviceable iseg = false := by
  induction xs with
  | nil => simp [served]
  | cons v rest ih =>
    rw [served,List.forall_mem_cons]
    cases fits : (cars v).serviceable iseg with
    | true => simp
    | false => simpa using ih

theorem leftover_of_none {iseg : Segment → Bool} (reach : List ι)
    (none : ∀ v ∈ xs, (cars v).serviceable iseg = false) : leftover cars iseg reach xs = reach := by
  induction xs with
  | nil => rfl
  | cons v rest ih =>
    rw [List.forall_mem_cons] at none
    simpa [leftover,none.1] using ih none.2

variable [DecidableEq ι] [DecidableEq κ]

def serviced (s : Lanes ι κ) (q : κ) (current : ι) : Lanes ι κ :=
  { s.popped q current with
    iseg := without s.iseg (cars current).needs
    woken := s.woken ++ [current] }

variable {s : Lanes ι κ} {q : κ}

theorem wp_searchTurn {current : ι} {ok : Option ι → Lanes ι κ → Prop}
    {err : StoplightError → Lanes ι κ → Prop} {halt : StoplightHang → Lanes ι κ → Prop}
    (free : s.held (s.lock current) = false) :
    (searchTurn cars q current).wp s ok err halt ↔
      ok (s.next current) (if (cars current).serviceable s.iseg then serviced cars s q current
        else s.setHeld (s.lock current) true) := by
  have same : update (update s.held (s.lock current) true) (s.lock current) false =
      s.held := by
    rw [update_idem,← free,update_eq_self]
  cases fits : (cars current).serviceable s.iseg with
  | false => simp [searchTurn,searchTurnWith,wp_lockAcquire_free free,fits]
  | true =>
    simp only [searchTurn,searchTurnWith,wp_bind,wp_read,wp_lockAcquire_free free,fits,if_true,
      wp_pop,wp_lockRelease,wp_modify,wp_pure,serviced,popped,setHeld,releaseIseg,same]
    rfl

structure Searched (s t : Lanes ι κ) (q : κ) (reach rest : List ι) : Prop where
  lock : t.lock = s.lock
  head : t.head = s.head
  size : t.size = s.size
  chained : t.Chained q (leftover cars s.iseg reach rest)
  woken : t.woken = s.woken ++ served cars s.iseg rest
  held : ∀ v, t.held (s.lock v) = true ↔
    s.held (s.lock v) = true ∨ v ∈ skipped cars s.iseg rest

theorem searchLoop_spec {reach rest : List ι} {current : Option ι} {fuel : Nat}
    (own : Injective s.lock) (chained : s.Chained q reach)
    (here : Links.Heads s.next current rest) (suffix : rest <:+ reach)
    (free : ∀ v ∈ rest, s.held (s.lock v) = false) (enough : rest.length ≤ fuel) :
    (searchLoop cars q fuel current).wp s (fun _ t => Searched cars s t q reach rest)
      never never := by
  induction rest generalizing s reach current fuel with
  | nil =>
    cases here
    rw [searchLoop,searchLoopWith,wp_pure]
    exact ⟨rfl,rfl,rfl,chained,by simp [served],by simp [skipped]⟩
  | cons v rest ih =>
    obtain ⟨rfl,-⟩ := Links.heads_cons.1 here
    obtain ⟨fuel,rfl⟩ : ∃ n, fuel = n + 1 := ⟨fuel - 1,by simp only [List.length_cons] at enough; omega⟩
    rw [List.forall_mem_cons] at free
    rw [searchLoop_succ,wp_bind,wp_searchTurn cars free.1]
    have enough' : rest.length ≤ fuel := Nat.le_of_succ_le_succ enough
    cases fits : (cars v).serviceable s.iseg with
    | true =>
      obtain ⟨behind,onward⟩ := chained.popped here suffix
      rw [if_pos rfl]
      refine wp_imp (ih (s := serviced cars s q v) own ⟨behind.chain,behind.tail⟩
        onward List.suffix_rfl free.2 enough') (fun _ t found => ?_)
      refine ⟨found.lock,found.head,found.size,?_,?_,?_⟩
      · simpa [leftover,fits,serviced] using found.chained
      · simpa [served,fits,serviced] using found.woken
      · simpa [skipped,fits,serviced,popped] using found.held
    | false =>
      have apart : ∀ w ∈ rest, s.lock w ≠ s.lock v := fun w member equal =>
        (List.nodup_cons.1 here.nodup).1 (own equal ▸ member)
      rw [if_neg (by simp)]
      refine wp_imp (ih (s := s.setHeld (s.lock v) true) own
        ⟨chained.chain,chained.tail⟩ (Links.heads_cons.1 here).2 ((List.suffix_cons v rest).trans suffix)
        (fun w member => ?_) enough') (fun _ t found => ?_)
      · simpa [setHeld,apart w member] using free.2 w member
      · refine ⟨found.lock,found.head,found.size,?_,?_,fun w => ?_⟩
        · simpa [leftover,fits,setHeld] using found.chained
        · simpa [served,fits,setHeld] using found.woken
        · have held := found.held w
          by_cases same : w = v
          · subst same
            simpa [skipped,fits,setHeld] using held
          · have differ : s.lock w ≠ s.lock v := fun equal => same (own equal)
            simpa [skipped,fits,setHeld,differ,same] using held

theorem schedulerSearch_spec {fuel : Nat}
    (own : Injective s.lock) (chained : s.Chained q xs)
    (free : ∀ v ∈ s.head q :: xs, s.held (s.lock v) = false) (enough : xs.length ≤ fuel) :
    (schedulerSearch cars fuel (some q)).wp s (fun _ t => Searched cars s t q xs xs)
      never never := by
  rw [List.forall_mem_cons] at free
  have outside := (List.nodup_cons.1 chained.chain.nodup).1
  simp only [schedulerSearch,schedulerSearchWith,wp_bind,wp_read,
    wp_lockAcquire_free free.1,wp_lockRelease]
  refine wp_imp (searchLoop_spec cars (s := s.setHeld (s.lock (s.head q)) true) own
    ⟨chained.chain,chained.tail⟩ chained.first List.suffix_rfl (fun v member => ?_) enough)
    (fun _ t found => ?_)
  · have differ := own.ne fun equal : v = s.head q => outside (equal ▸ member)
    simpa [setHeld,differ] using free.2 v member
  · refine ⟨found.lock,found.head,found.size,⟨found.chained.chain,found.chained.tail⟩,found.woken,
      fun v => ?_⟩
    by_cases same : v = s.head q
    · subst same
      have absent : s.head q ∉ skipped cars s.iseg xs := fun member =>
        outside (skipped_subset cars _ _ member)
      simp [setHeld,free.1,absent]
    · simpa [setHeld,own.ne same] using found.held v

def remaining (xs woken : List ι) : List ι := xs.filter (· ∉ woken)

/-- The list that the head reaches after a search is the old one without the vehicles that
were let in, with the tail and the size that belong to it, exactly when no vehicle could be
let in. (If one is let in the size is too large, and the vehicles in front of the last one
that is let in are gone.) -/
theorem scheduler_search_keeps_iff {s : Lanes ι κ} {q : κ} {xs : List ι} {fuel : Nat}
    (own : Injective s.lock) (holds : s.Holds q xs)
    (free : ∀ v ∈ s.head q :: xs, s.held (s.lock v) = false) (enough : xs.length ≤ fuel) :
    (schedulerSearch cars fuel (some q)).wp s
      (fun _ t => ∃ woken, t.woken = s.woken ++ woken ∧
        (t.Holds q (remaining xs woken) ↔ ∀ v ∈ xs, (cars v).serviceable s.iseg = false))
      (fun _ _ => False) (fun _ _ => False) := by
  refine wp_imp (schedulerSearch_spec cars own holds.toChained free enough)
    (fun _ t found => ⟨_,found.woken,fun kept => ?_,fun none => ?_⟩)
  · -- nothing was filtered out, since the size has not changed
    have size : (remaining xs (served cars s.iseg xs)).length = xs.length := by
      rw [← kept.size,found.size,holds.size]
    rw [remaining,List.length_filter_eq_length_iff] at size
    refine (served_eq_nil cars).mp (List.eq_nil_iff_forall_not_mem.mpr fun v member => ?_)
    exact absurd member (by simpa using size v (served_subset cars _ _ member))
  · have chained := found.chained
    rw [(served_eq_nil cars).mpr none,remaining]
    rw [leftover_of_none cars xs none] at chained
    simp only [List.not_mem_nil,not_false_eq_true,decide_true,List.filter_true]
    exact ⟨chained,by rw [found.size,holds.size]⟩

end Search

/-- Two vehicles behind the dummy 0: the first turns right from A, the second from B. -/
def twoCars : Fin 3 → Vehicle
  | 1 => ⟨.car,.A,.R⟩
  | _ => ⟨.car,.B,.R⟩

def street : Lanes (Fin 3) (Fin 1) where
  next
    | 0 => some 1
    | 1 => some 2
    | 2 => none
  lock := Fin.val
  locks := 3
  head := fun _ => 0
  tail := fun _ => 2
  size := fun _ => 2
  held := fun _ => false
  iseg := fun g => g = .BC
  woken := []

theorem street_holds : street.Holds 0 [1,2] := ⟨⟨.cons (.cons (.cons .nil)),rfl⟩,rfl⟩

theorem scheduler_search_keeps_street :
    (schedulerSearch twoCars 2 (some 0)).wp street
      (fun _ t => ∃ woken, t.woken = street.woken ++ woken ∧
        (t.Holds 0 (remaining [1,2] woken) ↔
          ∀ v ∈ [1,2], (twoCars v).serviceable street.iseg = false))
      (fun _ _ => False) (fun _ _ => False) :=
  scheduler_search_keeps_iff twoCars (fun _ _ => Fin.ext) street_holds (fun _ _ => rfl) (Nat.le_refl 2)

/-- The second vehicle is let in, and the first, which was not, is no longer in the queue. -/
theorem scheduler_search_loses_vehicle :
    ∃ t, schedulerSearch twoCars 2 (some 0) street = (.ok (),t) ∧ t.woken = [2] ∧
      t.next (t.head 0) = none ∧ t.size 0 = 2 ∧ ¬ t.Holds 0 (remaining [1,2] t.woken) :=
  ⟨_,rfl,rfl,rfl,rfl,fun holds => absurd holds.size (by decide)⟩

/-! Node locks -/

section Locks
variable [DecidableEq ι] [DecidableEq κ] {s : Lanes ι κ}

def produced (s : Lanes ι κ) (q : κ) (v : ι) : Lanes ι κ :=
  { s with
    next := update (update s.next v none) (s.tail q) (some v)
    tail := update s.tail q v
    size := update s.size q (s.size q + 1)
    held := update (update s.held (s.lock (s.tail q)) true) (s.lock v) false }

variable {q : κ} {v : ι} {err : StoplightError → Lanes ι κ → Prop} {halt : StoplightHang → Lanes ι κ → Prop}

theorem wp_queueProduce {ok : Nat → Lanes ι κ → Prop}
    (free : s.held (s.lock (s.tail q)) = false) :
    (queueProduce (some q) (some v)).wp s ok err halt ↔ ok (s.size q + 1) (s.produced q v) := by
  have free' : (s.setNext v none).held ((s.setNext v none).lock ((s.setNext v none).tail q)) = false :=
    free
  simp only [queueProduce,queueProduceWith,wp_bind,wp_modify,wp_read,
    wp_lockAcquire_free free',wp_lockRelease,wp_pure]
  simp [link,setNext,setTail,setHeld,setSize,produced]

theorem wp_queueProduce_blocked {ok : Nat → Lanes ι κ → Prop}
    (held : s.held (s.lock (s.tail q)) = true) :
    (queueProduce (some q) (some v)).wp s ok err halt ↔
      halt (.blocked (s.lock (s.tail q))) (s.setNext v none) := by
  have held' : (s.setNext v none).held ((s.setNext v none).lock ((s.setNext v none).tail q)) = true :=
    held
  simp only [queueProduce,queueProduceWith,wp_bind,wp_modify,wp_read,
    wp_lockAcquire_held held']
  rfl

variable {pq dq : κ}

theorem popped_tail (apart : dq ≠ pq) (current : ι) :
    (s.popped pq current).tail dq = s.tail dq := by
  by_cases last : s.tail pq = current
  · simp [popped,last,apart]
  · simp [popped,last]

/-- One turn of the loop of `Queue_consume` when the tail of the destination is free. -/
def consumed (s : Lanes ι κ) (pq dq : κ) (current : ι) : Lanes ι κ :=
  (((s.setHeld (s.lock current) true).popped pq current).setHeld (s.lock current) false).produced
    dq current

variable {fuel : Nat}

theorem wp_consumeLoop_cons {current : ι}
    {ok : Unit → Lanes ι κ → Prop} (apart : dq ≠ pq)
    (free : s.held (s.lock current) = false) (tail : s.held (s.lock (s.tail dq)) = false) :
    (consumeLoop pq dq (fuel + 1) (some current)).wp s ok err halt ↔
      (consumeLoop pq dq fuel (s.next current)).wp (s.consumed pq dq current) ok err halt := by
  have same : (((s.setHeld (s.lock current) true).popped pq current).setHeld
      (s.lock current) false).tail dq = s.tail dq := popped_tail apart current
  have tail' : (((s.setHeld (s.lock current) true).popped pq current).setHeld
      (s.lock current) false).held (s.lock (s.tail dq)) = false := by
    by_cases equal : s.lock (s.tail dq) = s.lock current
    · simp [setHeld,equal]
    · simpa [setHeld,popped,equal] using tail
  rw [← same] at tail'
  simp only [consumeLoop_succ,wp_bind,wp_read,wp_lockAcquire_free free,wp_pop,
    wp_lockRelease,wp_attempt,wp_queueProduce tail']
  rfl

theorem consumed_next {x : ι} (apart : dq ≠ pq) (notV : x ≠ v)
    (notTail : x ≠ s.tail dq) (notHead : x ≠ s.head pq) :
    (s.consumed pq dq v).next x = s.next x := by
  have tail : ((s.setHeld (s.lock v) true).popped pq v).tail dq = s.tail dq := popped_tail apart v
  simp only [consumed,produced,setHeld] at tail ⊢
  rw [tail,update_of_ne notTail,update_of_ne notV]
  simp [popped,notV,notHead]

theorem consumed_held {w : ι} (own : Injective s.lock) (apart : dq ≠ pq)
    (notV : w ≠ v) : (s.consumed pq dq v).held (s.lock w) =
      if w = s.tail dq then true else s.held (s.lock w) := by
  have tail : ((s.setHeld (s.lock v) true).popped pq v).tail dq = s.tail dq := popped_tail apart v
  simp only [consumed,produced,setHeld] at tail ⊢
  rw [tail]
  by_cases isTail : w = s.tail dq
  · subst isTail
    simp [popped,own.ne notV]
  · simp [popped,own.ne notV,own.ne isTail,isTail]

theorem consumeLoop_leaks {rest : List ι} {current : Option ι}
    (own : Injective s.lock) (apart : dq ≠ pq) (here : Links.Heads s.next current rest)
    (free : ∀ v ∈ rest, s.held (s.lock v) = false) (tail : s.held (s.lock (s.tail dq)) = false)
    (outside : s.tail dq ∉ rest) (headOut : s.head pq ∉ rest) (enough : rest.length ≤ fuel) :
    (consumeLoop pq dq fuel current).wp s
      (fun _ t => t.lock = s.lock ∧ t.head = s.head ∧
        (∀ w, w ∉ rest → s.held (s.lock w) = true → t.held (s.lock w) = true) ∧
        (rest ≠ [] → t.held (s.lock (s.tail dq)) = true)) never never := by
  induction rest generalizing s current fuel with
  | nil =>
    cases here
    rw [consumeLoop,consumeLoopWith,wp_pure]
    exact ⟨rfl,rfl,fun _ _ held => held,fun some => absurd rfl some⟩
  | cons v rest ih =>
    obtain ⟨rfl,onward⟩ := Links.heads_cons.1 here
    obtain ⟨fuel,rfl⟩ : ∃ n, fuel = n + 1 := ⟨fuel - 1,by simp only [List.length_cons] at enough; omega⟩
    rw [List.forall_mem_cons] at free
    rw [List.mem_cons,not_or] at outside headOut
    have behind := (List.nodup_cons.1 here.nodup).1
    have notV : ∀ x ∈ rest, x ≠ v := fun x member equal => behind (equal ▸ member)
    have notTail : ∀ x ∈ rest, x ≠ s.tail dq := fun x member equal => outside.2 (equal ▸ member)
    have notHead : ∀ x ∈ rest, x ≠ s.head pq := fun x member equal => headOut.2 (equal ▸ member)
    have next : ∀ x ∈ rest, (s.consumed pq dq v).next x = s.next x := fun x member =>
      consumed_next apart (notV x member) (notTail x member) (notHead x member)
    rw [wp_consumeLoop_cons apart free.1 tail]
    refine wp_imp (ih (s := s.consumed pq dq v) own (onward.congr next) (fun w member => ?_)
      ?_ ?_ headOut.2 (Nat.le_of_succ_le_succ enough)) (fun _ t kept => ?_)
    · rw [show (s.consumed pq dq v).lock = s.lock from rfl,consumed_held own apart (notV w member),
        if_neg (notTail w member)]
      exact free.2 w member
    · simp [consumed,produced,popped,setHeld]
    · simpa [consumed,produced] using behind
    · obtain ⟨lock,head,leaked,-⟩ := kept
      refine ⟨lock,head,fun w away before => ?_,fun _ => ?_⟩
      · rw [List.mem_cons,not_or] at away
        refine leaked w away.2 ((consumed_held own apart away.1).trans ?_)
        split
        · rfl
        · exact before
      · exact leaked _ outside.2 ((consumed_held own apart outside.1).trans (if_pos rfl))

theorem queueEnqueue_leaks (made : ∀ w, s.lock w < s.locks) (away : s.tail q ≠ v)
    (free : s.held (s.lock (s.tail q)) = false) :
    (queueEnqueue true (some q) (some v)).wp s (fun _ t => t.held (t.lock (s.tail q)) = true)
      never never := by
  have fresh : s.lock (s.tail q) ≠ s.locks := Nat.ne_of_lt (made _)
  simp [queueEnqueue,queueEnqueueWith,lockAcquire,link,setNext,setTail,setHeld,setSize,away,free,fresh]

theorem queueProduce_leaks (own : Injective s.lock) (away : s.tail q ≠ v)
    (free : s.held (s.lock (s.tail q)) = false) :
    (queueProduce (some q) (some v)).wp s (fun _ t => t.held (t.lock (s.tail q)) = true)
      never never := by
  rw [wp_queueProduce free]
  simp [produced,own.ne away]

theorem queueConsume_blocks (own : Injective s.lock)
    (free : ∀ w, s.held (s.lock w) = false) (size : s.size pq ≠ 0)
    (heads : dq ≠ pq → s.head dq ≠ s.head pq) (first : s.next (s.head pq) = some v)
    (away : v ≠ s.head dq) (notHead : v ≠ s.head pq) (empty : dq ≠ pq → s.tail dq = s.head dq)
    (enough : 0 < fuel) :
    (queueConsume fuel (some pq) (some dq)).wp s never never
      (fun site _ => ∃ l, site = .blocked l) := by
  simp only [queueConsume,queueConsumeWith,wp_bind,wp_read,if_neg size,
    wp_lockAcquire_free (free _)]
  by_cases same : dq = pq
  · subst same
    rw [wp_lockAcquire_held (by simp [setHeld])]
    exact ⟨_,rfl⟩
  · obtain ⟨fuel,rfl⟩ : ∃ n, fuel = n + 1 := ⟨fuel - 1,by omega⟩
    rw [wp_lockAcquire_free (by simp [setHeld,own.ne (heads same),free])]
    rw [show (((s.setHeld (s.lock (s.head pq)) true).setHeld (s.lock (s.head dq)) true).next
      (((s.setHeld (s.lock (s.head pq)) true).setHeld (s.lock (s.head dq)) true).head pq)) = some v
      from first]
    rw [← consumeLoop,consumeLoop_succ]
    simp only [wp_bind,wp_read]
    rw [wp_lockAcquire_free (by simp [setHeld,own.ne away,own.ne notHead,free])]
    simp only [wp_pop,wp_lockRelease,wp_attempt]
    rw [wp_queueProduce_blocked]
    · exact ⟨_,rfl⟩
    · have tail := popped_tail (s := ((s.setHeld (s.lock (s.head pq)) true).setHeld
        (s.lock (s.head dq)) true).setHeld (s.lock v) true) same v
      simp only [setHeld] at tail ⊢
      rw [tail,empty same]
      simp [popped,own.ne away.symm]

theorem queueConsume_leaks {xs : List ι} (own : Injective s.lock)
    (free : ∀ w, s.held (s.lock w) = false) (apart : dq ≠ pq) (holds : s.Holds pq xs)
    (some_ : xs ≠ []) (outside : s.tail dq ∉ s.head pq :: xs) (away : s.head dq ∉ s.head pq :: xs)
    (filled : s.tail dq ≠ s.head dq) (enough : xs.length ≤ fuel) :
    (queueConsume fuel (some pq) (some dq)).wp s (fun _ t => t.held (t.lock (s.tail dq)) = true)
      never never := by
  rw [List.mem_cons,not_or] at outside away
  have headOut := (List.nodup_cons.1 holds.chain.nodup).1
  have size : s.size pq ≠ 0 := by
    rw [holds.size]
    exact fun zero => some_ (List.eq_nil_of_length_eq_zero zero)
  simp only [queueConsume,queueConsumeWith,wp_bind,wp_read,if_neg size,
    wp_lockAcquire_free (free _)]
  rw [wp_lockAcquire_free (by simp [setHeld,own.ne away.1,free])]
  refine wp_imp (consumeLoop_leaks
    (s := (s.setHeld (s.lock (s.head pq)) true).setHeld (s.lock (s.head dq)) true) own apart
    holds.toChained.first (fun w member => ?_) ?_ outside.2 headOut enough)
    (fun _ t kept => ?_)
  · have notHead : w ≠ s.head pq := fun equal => headOut (equal ▸ member)
    have notDest : w ≠ s.head dq := fun equal => away.2 (equal ▸ member)
    simp [setHeld,own.ne notHead,own.ne notDest,free]
  · simp [setHeld,own.ne outside.1,own.ne filled,free]
  · obtain ⟨lock,head,-,leaked⟩ := kept
    have held := leaked some_
    simp only [wp_lockRelease,wp_modify]
    simp only [setHeld,setSize] at lock held ⊢
    rw [lock,update_of_ne (own.ne outside.1),update_of_ne (own.ne filled)]
    exact held

end Locks
end Lanes

/-- A call of one of the four functions that take node locks. -/
inductive QueueCall (ι κ : Type) where
  | enqueue (created : Bool) (q : Option κ) (vehicle : Option ι)
  | produce (q : Option κ) (vehicle : Option ι)
  | consume (pq dq : Option κ)
  | search (q : Option κ)

namespace QueueCall
variable {ι κ : Type} [DecidableEq ι] [DecidableEq κ]

def run (cars : ι → Vehicle) (fuel : Nat) : QueueCall ι κ → Lane ι κ Unit
  | enqueue created q vehicle => Lanes.queueEnqueue created q vehicle
  | produce q vehicle => do
    let _ ← Lanes.queueProduce q vehicle
    pure ()
  | consume pq dq => Lanes.queueConsume fuel pq dq
  | search q => Lanes.schedulerSearch cars fuel q

omit [DecidableEq ι] [DecidableEq κ]

/-- A vehicle that is appended is not in a queue. -/
def Fresh (s : Lanes ι κ) (contents : κ → List ι) : QueueCall ι κ → Prop
  | enqueue _ _ (some v) | produce _ (some v) => ∀ q, v ∉ s.head q :: contents q
  | _ => True

/-- The calls that let go of every node lock: those that append or move nothing, and a
search that passes no vehicle by. -/
def Balanced (cars : ι → Vehicle) (s : Lanes ι κ) (contents : κ → List ι) : QueueCall ι κ → Prop
  | enqueue created q vehicle => q = none ∨ vehicle = none ∨ created = false
  | produce q vehicle => q = none ∨ vehicle = none
  | consume pq dq => pq = none ∨ dq = none ∨ ∀ p ∈ pq, contents p = []
  | search q => ∀ k ∈ q, Lanes.skipped cars s.iseg (contents k) = []

end QueueCall

namespace Lanes
variable {ι κ : Type}

/-- Well-formed queues with the given vehicles, without a node in common, and a lock for
every node. -/
structure Parked (s : Lanes ι κ) (contents : κ → List ι) : Prop where
  holds : ∀ q, s.Holds q (contents q)
  apart : ∀ q q', q ≠ q' → ∀ v ∈ s.head q :: contents q, v ∉ s.head q' :: contents q'
  own : Injective s.lock
  made : ∀ v, s.lock v < s.locks

def Released (s : Lanes ι κ) : Prop := ∀ v, s.held (s.lock v) = false

variable {s : Lanes ι κ}

theorem Parked.tail_mem {contents : κ → List ι} (parked : s.Parked contents) (q : κ) :
    s.tail q ∈ s.head q :: contents q := by
  rw [(parked.holds q).tail]
  exact List.getLastD_mem_cons

variable {v : ι}

theorem Parked.tail_ne {contents : κ → List ι} (parked : s.Parked contents)
    (outside : ∀ q, v ∉ s.head q :: contents q) (q : κ) : s.tail q ≠ v :=
  fun equal => outside q (equal ▸ parked.tail_mem q)

def Releases (call : Lane ι κ Unit) (s : Lanes ι κ) : Prop :=
  call.wp s (fun _ t => t.Released) (fun _ t => t.Released) (fun _ _ => False)

theorem not_released {t : Lanes ι κ} (held : t.held (t.lock v) = true) : ¬ t.Released :=
  fun released => Bool.false_ne_true ((released v).symm.trans held)

theorem not_releases {call : Lane ι κ Unit}
    (leaks : call.wp s (fun _ t => t.held (t.lock v) = true) never
      never) : ¬ Releases call s :=
  not_wp_of_wp leaks (fun _ _ => not_released) (fun _ _ never => never.elim)
    (fun _ _ never => never.elim)

section Balance
variable [DecidableEq ι] [DecidableEq κ] {s : Lanes ι κ} {contents : κ → List ι} {fuel : Nat}

section
variable (parked : s.Parked contents) (free : s.Released)
include parked free

theorem queueEnqueue_releases_iff (created : Bool)
    (q : Option κ) (vehicle : Option ι) (fresh : ∀ v ∈ vehicle, ∀ q, v ∉ s.head q :: contents q) :
    Releases (queueEnqueue created q vehicle) s ↔ q = none ∨ vehicle = none ∨ created = false := by
  cases q with
  | none => simpa [queueEnqueue,queueEnqueueWith,Releases] using free
  | some q =>
    cases vehicle with
    | none => simpa [queueEnqueue,queueEnqueueWith,Releases] using free
    | some v =>
      cases created with
      | false => simpa [queueEnqueue,queueEnqueueWith,Releases,setNext,Released] using free
      | true =>
        refine iff_of_false (not_releases (v := s.tail q) ?_) (by simp)
        exact queueEnqueue_leaks parked.made (parked.tail_ne (fresh v rfl) q) (free _)

theorem queueProduce_releases_iff (q : Option κ)
    (vehicle : Option ι) (fresh : ∀ v ∈ vehicle, ∀ q, v ∉ s.head q :: contents q) :
    Releases (queueProduce q vehicle >>= fun _ => pure ()) s ↔ q = none ∨ vehicle = none := by
  cases q with
  | none => simpa [queueProduce,queueProduceWith,Releases] using free
  | some q =>
    cases vehicle with
    | none => simpa [queueProduce,queueProduceWith,Releases] using free
    | some v =>
      refine iff_of_false (not_releases (v := s.tail q) ?_) (by simp)
      rw [wp_bind]
      exact queueProduce_leaks parked.own (parked.tail_ne (fresh v rfl) q) (free _)

theorem queueConsume_unbalanced
    (enough : ∀ q, (contents q).length ≤ fuel) {pq dq : κ} (some_ : contents pq ≠ []) :
    ¬ Releases (queueConsume fuel (some pq) (some dq)) s := by
  have holds := parked.holds pq
  have size : s.size pq ≠ 0 := by
    rw [holds.size]
    exact fun zero => some_ (List.eq_nil_of_length_eq_zero zero)
  by_cases filled : dq ≠ pq ∧ s.tail dq ≠ s.head dq
  · obtain ⟨apart,notEmpty⟩ := filled
    exact not_releases (queueConsume_leaks parked.own free apart holds some_
      (parked.apart dq pq apart _ (parked.tail_mem dq))
      (parked.apart dq pq apart _ List.mem_cons_self) notEmpty (enough pq))
  · obtain ⟨v,rest,vehicles⟩ := List.exists_cons_of_ne_nil some_
    have long := enough pq
    have notHead := (List.nodup_cons.1 holds.chain.nodup).1
    have first := holds.toChained.first
    rw [vehicles] at first long notHead
    have member : v ∈ s.head pq :: contents pq := by rw [vehicles]; simp
    refine not_wp_of_wp (queueConsume_blocks parked.own free size (fun differ equal => ?_)
      (Links.heads_cons.1 first).1 (fun equal => ?_) (fun equal => ?_) ?_ ?_)
      (fun _ _ never => never.elim) (fun _ _ never => never.elim) (fun _ _ _ => id)
    · exact parked.apart pq dq (Ne.symm differ) _ (equal ▸ List.mem_cons_self) List.mem_cons_self
    · by_cases same : dq = pq
      · subst same
        exact notHead (equal ▸ List.mem_cons_self)
      · exact parked.apart pq dq (Ne.symm same) v member (equal ▸ List.mem_cons_self)
    · exact notHead (equal ▸ List.mem_cons_self)
    · exact fun differ => by_contra fun notEmpty => filled ⟨differ,notEmpty⟩
    · simp only [List.length_cons] at long
      omega

theorem queueConsume_releases_iff
    (enough : ∀ q, (contents q).length ≤ fuel) (pq dq : Option κ) :
    Releases (queueConsume fuel pq dq) s ↔ pq = none ∨ dq = none ∨ ∀ p ∈ pq, contents p = [] := by
  cases pq with
  | none => simpa [queueConsume,queueConsumeWith,Releases] using free
  | some pq =>
    cases dq with
    | none => simpa [queueConsume,queueConsumeWith,Releases] using free
    | some dq =>
      by_cases empty : contents pq = []
      · have size : s.size pq = 0 := by rw [(parked.holds pq).size,empty]; rfl
        simpa [queueConsume,queueConsumeWith,Releases,size,empty] using free
      · refine iff_of_false (queueConsume_unbalanced parked free enough empty) ?_
        simpa using empty

end

theorem schedulerSearch_releases_iff (cars : ι → Vehicle) (parked : s.Parked contents)
    (free : s.Released) (enough : ∀ q, (contents q).length ≤ fuel) (q : Option κ) :
    Releases (schedulerSearch cars fuel q) s ↔ ∀ k ∈ q, skipped cars s.iseg (contents k) = [] := by
  cases q with
  | none => simpa [schedulerSearch,schedulerSearchWith,Releases] using free
  | some q =>
    have spec := schedulerSearch_spec cars parked.own (parked.holds q).toChained
      (fun v _ => free v) (enough q)
    have taken : ∀ t, Searched cars s t q (contents q) (contents q) →
        ∀ v, t.held (t.lock v) = true ↔ v ∈ skipped cars s.iseg (contents q) := by
      intro t found v
      rw [found.lock,found.held v,free v]
      simp
    simp only [Option.mem_def,Option.some.injEq,forall_eq']
    by_cases none : skipped cars s.iseg (contents q) = []
    · refine iff_of_true (wp_mono spec (fun _ t found v => ?_) (fun _ _ never => never.elim)
        (fun _ _ never => never)) none
      have kept := taken t found v
      rw [none] at kept
      simpa using kept
    · obtain ⟨v,member⟩ := List.exists_mem_of_ne_nil _ none
      refine iff_of_false (not_releases (v := v) ?_) none
      exact wp_mono spec (fun _ t found => (taken t found v).mpr member) (fun _ _ never => never)
        (fun _ _ never => never)

end Balance

/-- On well-formed queues whose node locks are free, each of the four functions returns
without having asked for a lock of its own and without a node lock exactly when it is
`Balanced`. -/
theorem node_locks_balanced_iff [DecidableEq ι] [DecidableEq κ] (cars : ι → Vehicle)
    {s : Lanes ι κ} {contents : κ → List ι} (parked : s.Parked contents)
    (free : s.Released) {fuel : Nat} (enough : ∀ q, (contents q).length ≤ fuel)
    (call : QueueCall ι κ) (fresh : call.Fresh s contents) :
    (call.run cars fuel).wp s (fun _ t => t.Released) (fun _ t => t.Released) (fun _ _ => False) ↔
      call.Balanced cars s contents := by
  cases call with
  | enqueue created q vehicle =>
    refine queueEnqueue_releases_iff parked free created q vehicle fun v member => ?_
    cases member
    exact fresh
  | produce q vehicle =>
    refine queueProduce_releases_iff parked free q vehicle fun v member => ?_
    cases member
    exact fresh
  | consume pq dq => exact queueConsume_releases_iff parked free enough pq dq
  | search q => exact schedulerSearch_releases_iff cars parked free enough q

/-- A waiting-zone queue `false`, with vehicle 1 behind its dummy 0, and a scheduler queue
`true`, with its dummy 2 only; vehicle 3 is in neither. -/
def lot : Lanes (Fin 4) Bool where
  next
    | 0 => some 1
    | _ => none
  lock := Fin.val
  locks := 4
  head
    | false => 0
    | true => 2
  tail
    | false => 1
    | true => 2
  size
    | false => 1
    | true => 0
  held := fun _ => false
  iseg := fun _ => true
  woken := []

def lotVehicles : Bool → List (Fin 4)
  | false => [1]
  | true => []

theorem lot_parked : lot.Parked lotVehicles where
  holds
    | false => ⟨⟨.cons (.cons .nil),rfl⟩,rfl⟩
    | true => ⟨⟨.cons .nil,rfl⟩,rfl⟩
  apart := by decide
  own _ _ := Fin.ext
  made := by decide

/-- A search that lets its only vehicle in gives all node locks back. -/
theorem node_locks_balanced_lot :
    ((QueueCall.search (some false)).run (fun _ => ⟨.car,.A,.R⟩) 1).wp lot (fun _ t => t.Released)
      (fun _ t => t.Released) (fun _ _ => False) :=
  (node_locks_balanced_iff (fun _ => ⟨.car,.A,.R⟩) lot_parked (fun _ => rfl) (by decide)
    (.search (some false)) trivial).mpr fun _ member => by cases member; rfl

/-- `Queue_produce` keeps the lock of the dummy it appends to, and `Queue_consume` waits for
the one it has taken itself. -/
theorem queue_calls_unbalanced : lot.Parked lotVehicles ∧ lot.Released ∧
    (∃ t, queueProduce (some true) (some 3) lot = (.ok 1,t) ∧ t.held (t.lock 2) = true) ∧
    ∃ t, queueConsume 1 (some false) (some true) lot = (.panic (.blocked (lot.lock 2)),t) :=
  ⟨lot_parked,fun _ => rfl,⟨_,rfl,rfl⟩,⟨_,rfl⟩⟩

end Lanes
end Os161
