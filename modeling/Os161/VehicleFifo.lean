import Os161.VehicleQueue

/-! `Queue_init`, `Queue_enqueue` and `Queue_dequeue` used by one thread, against a list from
which vehicles are taken in the order in which they came. -/
namespace Os161

open Function

namespace Lanes
variable {ι κ : Type} [DecidableEq ι] [DecidableEq κ]

/-- The three arguments tell which of the two `kmalloc`s and `lock_create` succeed. -/
def queueInit (queue node created : Bool) (q : κ) (dummy : ι) : Lane ι κ (Option κ) :=
  if queue then
    if node then do
      modify fun s => s.setNext dummy none
      if created then do
        modify fun s => { s with lock := update s.lock dummy s.locks, locks := s.locks + 1 }
        modify fun s => { s.setTail q dummy with head := update s.head q dummy }
        modify fun s => s.setSize q 0
        pure (some q)
      else pure none
    else pure none
  else pure none

def tailBack (s : Lanes ι κ) (q : κ) (v : ι) : Lanes ι κ :=
  if s.tail q = v then s.setTail q (s.head q) else s

def queueDequeueWith (acquire : Nat → Lane ι κ Unit) : Option κ → Lane ι κ (Option ι)
  | none => pure none
  | some q => do
    let s ← read
    if s.size q = 0 then pure none
    else do
      acquire (s.lock (s.head q))
      let s ← read
      let temp := s.head q
      match s.next temp with
      | none => do
        lockRelease (s.lock temp)
        pure none
      | some dequeuedVehicle => do
        acquire (s.lock dequeuedVehicle)
        modify fun s => { s with head := update s.head q dequeuedVehicle }
        modify fun s => s.setNext temp (s.next dequeuedVehicle)
        modify fun s => s.tailBack q dequeuedVehicle
        modify fun s => s.setSize q (s.size q - 1)
        lockRelease (s.lock temp)
        lockRelease (s.lock dequeuedVehicle)
        modify fun s => s.setNext dequeuedVehicle none
        pure (some dequeuedVehicle)

end Lanes

inductive QueueOp (ι : Type) where
  | enqueue (v : ι)
  | dequeue
  deriving DecidableEq, Repr

namespace QueueOp
variable {ι κ : Type} [DecidableEq ι] [DecidableEq κ]

/-- The operation and its answers. Node locks are available. -/
def run (q : κ) : QueueOp ι → Lane ι κ (List (Option ι))
  | enqueue v => do
    Lanes.queueEnqueueWith Lanes.lockAvailable true (some q) (some v)
    pure []
  | dequeue => do
    let v ← Lanes.queueDequeueWith Lanes.lockAvailable (some q)
    pure [v]

def runAll (q : κ) : List (QueueOp ι) → Lane ι κ (List (Option ι))
  | [] => pure []
  | op :: rest => do
    let answers ← op.run q
    let later ← runAll q rest
    pure (answers ++ later)

def session (q : κ) (dummy : ι) (ops : List (QueueOp ι)) : Lane ι κ (List (Option ι)) := do
  let _ ← Lanes.queueInit true true true q dummy
  runAll q ops

omit [DecidableEq ι]

def enqueued : List (QueueOp ι) → List ι
  | [] => []
  | enqueue v :: rest => v :: enqueued rest
  | dequeue :: rest => enqueued rest

/-- A queue as a list: what it holds after the operations, and the answers. -/
def fifo : List ι → List (QueueOp ι) → List ι × List (Option ι)
  | xs, [] => (xs,[])
  | xs, enqueue v :: rest => fifo (xs ++ [v]) rest
  | xs, dequeue :: rest => ((fifo xs.tail rest).1,xs.head? :: (fifo xs.tail rest).2)

end QueueOp

/-! What the operations do -/

namespace Lanes
variable {ι κ : Type} [DecidableEq ι] [DecidableEq κ] {s : Lanes ι κ} {q : κ}
  {err : StoplightError → Lanes ι κ → Prop} {halt : StoplightHang → Lanes ι κ → Prop}

theorem queueInit_spec (q : κ) (dummy : ι) (s : Lanes ι κ) :
    (queueInit true true true q dummy).wp s (fun result t => result = some q ∧ t.Holds q [] ∧ t.head q = dummy)
      never never := by
  simp only [queueInit,if_true,wp_bind,wp_modify,wp_pure]
  refine ⟨trivial,⟨⟨?_,?_⟩,?_⟩,?_⟩
  · refine .cons ?_
    simp only [setNext,setSize,setTail,update_self]
    exact .nil
  · simp only [setNext,setSize,setTail,update_self,List.getLastD_nil]
  · simp only [setSize,update_self,List.length_nil]
  · simp only [setNext,setSize,setTail,update_self]

def appended (s : Lanes ι κ) (q : κ) (v : ι) : Lanes ι κ :=
  { (s.setNext v none).link q v with
    lock := update s.lock v s.locks
    locks := s.locks + 1
    size := update s.size q (s.size q + 1)
    held := update (update s.held (update s.lock v s.locks (s.tail q)) true)
      (update s.lock v s.locks v) false }

variable {v : ι}

theorem wp_queueEnqueue_available {ok : Unit → Lanes ι κ → Prop} :
    (queueEnqueueWith lockAvailable true (some q) (some v)).wp s ok err halt ↔ ok () (s.appended q v) := by
  simp only [queueEnqueueWith,if_true,wp_bind,wp_modify,wp_read,wp_lockAvailable,
    wp_lockRelease,link,setNext,setTail,setHeld,setSize,appended,update_self]

theorem Holds.appended {xs : List ι} (holds : s.Holds q xs) (fresh : v ∉ s.head q :: xs) :
    (s.appended q v).Holds q (xs ++ [v]) := by
  have linked := holds.toChained.linked fresh
  refine ⟨⟨linked.chain,linked.tail⟩,?_⟩
  rw [List.length_append,List.length_singleton,← holds.size]
  exact update_self _ _ _

theorem wp_queueDequeue_empty {ok : Option ι → Lanes ι κ → Prop} (empty : s.size q = 0) :
    (queueDequeueWith lockAvailable (some q)).wp s ok err halt ↔ ok none s := by
  simp only [queueDequeueWith,wp_bind,wp_read,empty,if_true,wp_pure]

theorem tailBack_head (s : Lanes ι κ) (q : κ) (v : ι) : (s.tailBack q v).head = s.head := by
  unfold tailBack
  split <;> rfl

theorem queueDequeue_spec {rest : List ι} (holds : s.Holds q (v :: rest)) :
    (queueDequeueWith lockAvailable (some q)).wp s (fun result t => result = some v ∧ t.head q = v)
      never never := by
  have some_ : s.size q ≠ 0 := by
    rw [holds.size]
    exact Nat.succ_ne_zero _
  have first : s.next (s.head q) = some v := (Links.heads_cons.1 holds.toChained.first).1
  simp only [queueDequeueWith,wp_bind,wp_read,if_neg some_,wp_lockAvailable,setHeld,first,
    wp_modify,wp_lockRelease,wp_pure,setSize,setNext]
  refine ⟨trivial,?_⟩
  rw [tailBack_head]
  exact update_self _ _ _

end Lanes

namespace QueueOp
variable {ι κ : Type} [DecidableEq ι] [DecidableEq κ]

def Calm : List ι → List (QueueOp ι) → Prop
  | _, [] => True
  | xs, enqueue v :: rest => Calm (xs ++ [v]) rest
  | xs, dequeue :: rest => xs = [] ∧ Calm xs rest

/-- The queue behaves as the list does: same answers, its length is the size, and the head is not
a vehicle that was handed out. -/
structure Agrees (q : κ) (xs : List ι) (done : List (QueueOp ι)) (answers : List (Option ι))
    (t : Lanes ι κ) : Prop where
  same : answers = (fifo xs done).2
  size : t.size q = (fifo xs done).1.length
  head : ∀ v, some v ∈ answers → t.head q ≠ v

/-- From a state in which the queue holds `xs`. -/
def AlwaysAgrees (q : κ) (xs : List ι) (ops : List (QueueOp ι)) (s : Lanes ι κ) : Prop :=
  ∀ done, done <+: ops →
    (runAll q done).wp s (Agrees q xs done) (fun _ _ => False) fun _ _ => False

variable {q : κ} {xs : List ι} {s : Lanes ι κ}

theorem alwaysAgrees_nil (holds : s.Holds q xs) :
    (runAll q []).wp s (Agrees q xs []) never never :=
  ⟨rfl,holds.size,fun _ member => (List.not_mem_nil member).elim⟩

variable {rest : List (QueueOp ι)}

theorem alwaysAgrees_cons {op : QueueOp ι} (holds : s.Holds q xs) :
    AlwaysAgrees q xs (op :: rest) s ↔ ∀ done, done <+: rest →
      (runAll q (op :: done)).wp s (Agrees q xs (op :: done)) never never := by
  constructor
  · exact fun all done within => all (op :: done) ((List.prefix_cons_inj op).mpr within)
  · intro all done within
    cases done with
    | nil => exact alwaysAgrees_nil holds
    | cons first done =>
      obtain ⟨rfl,inRest⟩ := List.cons_prefix_cons.mp within
      exact all done inRest

theorem alwaysAgrees_enqueue {v : ι}
    (holds : s.Holds q xs) :
    AlwaysAgrees q xs (enqueue v :: rest) s ↔ AlwaysAgrees q (xs ++ [v]) rest (s.appended q v) := by
  rw [alwaysAgrees_cons holds]
  refine forall₂_congr fun done _ => ?_
  rw [runAll,run,wp_bind,wp_bind,Lanes.wp_queueEnqueue_available,wp_pure,wp_bind]
  have shift : ∀ later t,
      Agrees q xs (enqueue v :: done) ([] ++ later) t ↔ Agrees q (xs ++ [v]) done later t :=
    fun later t => ⟨fun agree => ⟨agree.same,agree.size,agree.head⟩,
      fun agree => ⟨agree.same,agree.size,agree.head⟩⟩
  simp only [wp_pure,shift]

theorem alwaysAgrees_dequeue_nil
    (holds : s.Holds q []) : AlwaysAgrees q [] (dequeue :: rest) s ↔ AlwaysAgrees q [] rest s := by
  rw [alwaysAgrees_cons holds]
  refine forall₂_congr fun done _ => ?_
  rw [runAll,run,wp_bind,wp_bind,Lanes.wp_queueDequeue_empty holds.size,wp_pure,
    wp_bind]
  have shift : ∀ later t, Agrees q [] (dequeue :: done) ([none] ++ later) t ↔ Agrees q [] done later t := by
    intro later t
    constructor
    · rintro ⟨same,size,head⟩
      exact ⟨(List.cons.inj same).2,size,fun v member => head v (List.mem_cons_of_mem _ member)⟩
    · rintro ⟨same,size,head⟩
      refine ⟨congrArg (List.cons none) same,size,fun v member => ?_⟩
      rcases List.mem_cons.mp member with impossible | later
      · cases impossible
      · exact head v later
  simp only [wp_pure,shift]

theorem not_alwaysAgrees_dequeue_cons {v : ι} (holds : s.Holds q (v :: xs)) : ¬ AlwaysAgrees q (v :: xs) (dequeue :: rest) s := by
  have taken : (runAll q [dequeue]).wp s (fun answers t => answers = [some v] ∧ t.head q = v)
      never never := by
    rw [runAll,run,wp_bind,wp_bind]
    refine wp_imp (Lanes.queueDequeue_spec holds) ?_
    rintro _ t ⟨rfl,head⟩
    exact ⟨rfl,head⟩
  intro agrees
  refine not_wp_of_wp taken ?_ (fun _ _ h => h.elim) (fun _ _ h => h.elim)
    (agrees [dequeue] (List.prefix_append [dequeue] rest))
  rintro answers t ⟨rfl,head⟩ agree
  exact agree.head v List.mem_cons_self head

theorem alwaysAgrees_iff_calm {ops : List (QueueOp ι)}
    (holds : s.Holds q xs) (distinct : (s.head q :: xs ++ enqueued ops).Nodup) :
    AlwaysAgrees q xs ops s ↔ Calm xs ops := by
  induction ops generalizing s xs with
  | nil =>
    refine iff_of_true (fun done within => ?_) trivial
    rw [List.prefix_nil.mp within]
    exact alwaysAgrees_nil holds
  | cons op rest later =>
    cases op with
    | enqueue v =>
      have fresh : v ∉ s.head q :: xs := fun member =>
        List.disjoint_of_nodup_append distinct member List.mem_cons_self
      rw [alwaysAgrees_enqueue holds]
      refine later (holds.appended fresh) ?_
      rw [List.cons_append,List.append_assoc]
      exact distinct
    | dequeue =>
      cases xs with
      | nil =>
        rw [alwaysAgrees_dequeue_nil holds,Calm,later holds distinct]
        exact (and_iff_right rfl).symm
      | cons v xs =>
        exact iff_of_false (not_alwaysAgrees_dequeue_cons holds) fun calm => List.cons_ne_nil _ _ calm.1

omit [DecidableEq ι] in
theorem calm_iff {ops : List (QueueOp ι)} :
    Calm xs ops ↔ ∀ done rest, ops = done ++ dequeue :: rest → xs = [] ∧ enqueued done = [] := by
  induction ops generalizing xs with
  | nil => exact iff_of_true trivial fun done rest split => by simp at split
  | cons op ops later =>
    constructor
    · intro calm done rest split
      cases done with
      | nil =>
        obtain ⟨rfl,-⟩ := List.cons.inj split
        exact ⟨calm.1,rfl⟩
      | cons first done =>
        obtain ⟨rfl,rfl⟩ := List.cons.inj split
        cases op with
        | enqueue v => exact absurd (later.mp calm done rest rfl).1 (by simp)
        | dequeue => exact ⟨calm.1,(later.mp calm.2 done rest rfl).2⟩
    · intro early
      cases op with
      | enqueue v =>
        refine later.mpr fun done rest split => ?_
        exact absurd (early (enqueue v :: done) rest (congrArg (List.cons _) split)).2 (List.cons_ne_nil _ _)
      | dequeue =>
        have empty := (early [] ops rfl).1
        refine ⟨empty,later.mpr fun done rest split => ⟨empty,?_⟩⟩
        exact (early (dequeue :: done) rest (congrArg (List.cons _) split)).2

/-- A new queue is a FIFO (the answers are those of a list, the size is its length, and the head is
never a vehicle that was handed out) through a list of operations on distinct vehicles just if no
`Queue_dequeue` comes after a `Queue_enqueue`. -/
theorem queue_is_fifo_iff (s : Lanes ι κ) (q : κ) {dummy : ι} {ops : List (QueueOp ι)}
    (distinct : (dummy :: enqueued ops).Nodup) :
    (∀ done, done <+: ops →
      (session q dummy done).wp s (Agrees q [] done) (fun _ _ => False) fun _ _ => False) ↔
    ∀ done rest, ops = done ++ dequeue :: rest → enqueued done = [] := by
  obtain ⟨_,t,ran,-,holds,head⟩ := wp_returns (Lanes.queueInit_spec q dummy s)
  have started : ∀ done, (session q dummy done).wp s (Agrees q [] done) (fun _ _ => False) (fun _ _ => False) ↔
      (runAll q done).wp t (Agrees q [] done) (fun _ _ => False) fun _ _ => False := by
    intro done
    rw [session,Exec.wp,bind_ok ran,Exec.wp]
  simp only [started]
  rw [← head] at distinct
  refine (alwaysAgrees_iff_calm holds distinct).trans (calm_iff.trans ?_)
  exact forall₃_congr fun done rest _ => and_iff_right rfl

/-- Two vehicles that are only put in. -/
theorem queue_is_fifo_enqueue :
    (session (0 : Fin 1) (0 : Fin 3) [enqueue 1,enqueue 2]).wp Lanes.street
      (Agrees 0 [] [enqueue 1,enqueue 2]) (fun _ _ => False) fun _ _ => False := by
  refine (queue_is_fifo_iff Lanes.street 0 (by decide)).mpr (fun done rest split => ?_) _ List.prefix_rfl
  have member : dequeue ∈ [enqueue (1 : Fin 3),enqueue 2] :=
    split ▸ List.mem_append_right _ List.mem_cons_self
  exact absurd member (by decide)

/-- Two vehicles put in and two taken out: the first answer is right, the second is `NULL` while
the size is 1, and the head is the vehicle that was handed out. -/
theorem queue_loses_second_vehicle :
    (session (0 : Fin 1) (0 : Fin 3) [enqueue 1,enqueue 2,dequeue,dequeue] Lanes.street).1 =
        .ok [some 1,none] ∧
      (session (0 : Fin 1) (0 : Fin 3) [enqueue 1,enqueue 2,dequeue,dequeue] Lanes.street).2.size 0 = 1 ∧
      (session (0 : Fin 1) (0 : Fin 3) [enqueue 1,enqueue 2,dequeue,dequeue] Lanes.street).2.head 0 = 1 ∧
      (fifo [] [enqueue (1 : Fin 3),enqueue 2,dequeue,dequeue]).2 = [some 1,some 2] :=
  ⟨rfl,rfl,rfl,rfl⟩

end QueueOp

end Os161
