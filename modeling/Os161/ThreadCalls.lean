import Os161.Threads

/-! What each call of the thread system does to the lists, the counters and the
allocator. The results are stated as equations of states where the call changes little, and
as the threads that a call appends to the run queue where it can make the queue grow. -/
namespace Os161

open Thr

section Calls
variable {s : Threads}

def Threads.sleepsOn (s : Threads) (addr : SleepAddr) (t : Tid) : Bool :=
  (s.thread t).tSleepaddr = some addr

/-- `u` is `s` with the threads `l` added to its run queue. The ring grows, and memory is
allocated, exactly when the threads do not fit. -/
structure Queued (s : Threads) (l : List Tid) (u : Threads) : Prop where
  rest : u = s.withRunqueue ⟨u.runqueue,u.mem⟩
  valid : u.runqueue.Valid
  list : u.runqueue.toList = s.runqueue.toList ++ l
  size : s.runqueue.size ≤ u.runqueue.size
  calm : s.runqueue.count + l.length < s.runqueue.size →
    u.runqueue.size = s.runqueue.size ∧ u.mem = s.mem
  grew : ¬s.runqueue.count + l.length < s.runqueue.size → s.mem.Spent u.mem

variable {u : Threads} {l : List Tid}

theorem Queued.count (queued : Queued s l u) :
    u.runqueue.count = s.runqueue.count + l.length := by
  rw [← Queue.length_toList,queued.list,List.length_append,Queue.length_toList]

theorem Queued.others (queued : Queued s l u) :
    u.curthread = s.curthread ∧ u.sleepers = s.sleepers ∧ u.zombies = s.zombies ∧
      u.numthreads = s.numthreads ∧ u.thread = s.thread ∧ u.born = s.born ∧
      u.destroyed = s.destroyed := by
  rw [queued.rest]
  exact ⟨rfl,rfl,rfl,rfl,rfl,rfl,rfl⟩

theorem Queued.refl (valid : s.runqueue.Valid) : Queued s [] s :=
  ⟨rfl,valid,(List.append_nil _).symm,Nat.le_refl _,fun _ => ⟨rfl,rfl⟩,
    fun full => absurd (Queue.count_lt valid) full⟩

theorem Queued.calls (queued : Queued s l u) :
    s.mem.calls ≤ u.mem.calls := by
  by_cases room : s.runqueue.count + l.length < s.runqueue.size
  · rw [(queued.calm room).2]
  · exact (queued.grew room).later.le

theorem Queued.succeeds (queued : Queued s l u) :
    u.mem.succeeds = s.mem.succeeds := by
  by_cases room : s.runqueue.count + l.length < s.runqueue.size
  · rw [(queued.calm room).2]
  · exact (queued.grew room).same

theorem Queued.trans {w : Threads} {m : List Tid} (first : Queued s l u)
    (second : Queued u m w) : Queued s (l ++ m) w := by
  have counted := first.count
  refine ⟨?_,second.valid,?_,first.size.trans second.size,fun room => ?_,fun full => ?_⟩
  · rw [second.rest,first.rest]
    rfl
  · rw [second.list,first.list,List.append_assoc]
  · rw [List.length_append] at room
    obtain ⟨size,mem⟩ := first.calm (by omega)
    obtain ⟨size',mem'⟩ := second.calm (by omega)
    exact ⟨size'.trans size,mem'.trans mem⟩
  · rw [List.length_append] at full
    by_cases half : s.runqueue.count + l.length < s.runqueue.size
    · obtain ⟨size,mem⟩ := first.calm half
      exact mem ▸ second.grew (by omega)
    · have spent := first.grew half
      by_cases more : u.runqueue.count + m.length < u.runqueue.size
      · exact (second.calm more).2 ▸ spent
      · exact spent.trans (second.grew more)

theorem makeRunnable_spec (valid : s.runqueue.Valid) (t : Tid) :
    (makeRunnable t).wp s (fun _ u => Queued s [t] u)
      (fun _ u => ¬s.runqueue.count + 1 < s.runqueue.size ∧ s.mem.ready = false ∧
        u = s.withRunqueue ⟨s.runqueue,s.mem.next⟩) never := by
  rw [makeRunnable,onRunqueue,wp_zoom]
  apply wp_ends (Queue.qAddtail_spec (s := ⟨s.runqueue,s.mem⟩) valid t)
  · rintro _ h ⟨validH,size,list,calm,grew⟩
    exact ⟨rfl,validH,list,size,calm,grew⟩
  · rintro _ h ⟨full,refused,rfl⟩
    exact ⟨full,refused,rfl⟩

variable {ok : Unit → Threads → Prop} {err : Errno → Threads → Prop} {halt : ThreadPanic → Threads → Prop}

theorem wp_mustSucceed {call : Thr Unit} {site : ThreadPanic} :
    (mustSucceed call site).wp s ok err halt ↔
      call.wp s ok (fun _ u => halt site u) halt := by
  simp only [mustSucceed,wp_bind,wp_attempt]
  rfl

theorem wp_kmalloc :
    Thr.kmalloc.wp s ok err halt ↔
      if s.mem.ready then ok () { s with mem := s.mem.next }
      else err .enomem { s with mem := s.mem.next } := by
  rw [Thr.kmalloc,wp_zoom,Held.wp_kmalloc]

theorem wp_current {cur : Tid} (running : s.curthread = some cur) {ok : Tid → Threads → Prop} :
    current.wp s ok err halt ↔ ok cur s := by
  simp only [current,wp_bind,wp_read,running,wp_pure]

/-! Waking up -/

def Threads.stillAsleep (s : Threads) (addr : SleepAddr) : KArray Tid :=
  ⟨s.sleepers.v.filter fun t => !s.sleepsOn addr t,s.sleepers.max⟩

def Threads.woken (s : Threads) (addr : SleepAddr) : List Tid :=
  s.sleepers.v.filter (s.sleepsOn addr)

def Kmem.Refuses (m : Kmem) : Prop := ∃ i, m.calls ≤ i ∧ m.succeeds i = false

theorem wakeupLoop_spec (addr : SleepAddr) (rest passed : List Tid) (valid : s.runqueue.Valid)
    (fits : s.sleepers.num ≤ s.sleepers.max) (split : s.sleepers.v = passed ++ rest) :
    (wakeupLoop addr rest.length passed.length).wp s
      (fun _ u => Queued
        { s with sleepers := ⟨passed ++ rest.filter fun t => !s.sleepsOn addr t,s.sleepers.max⟩ }
        (rest.filter (s.sleepsOn addr)) u) never
      (fun site u => site = .wakeupResult ∧ s.mem.calls < u.mem.calls ∧
        ¬s.runqueue.count + (rest.filter (s.sleepsOn addr)).length < s.runqueue.size ∧
        s.mem.Refuses) := by
  induction rest generalizing s passed with
  | nil =>
    have same : ({ s with sleepers := ⟨passed ++ [],s.sleepers.max⟩ } : Threads) = s := by
      rw [← split]
    rw [List.length_nil,wakeupLoop,wp_pure,List.filter_nil,List.filter_nil,same]
    exact .refl valid
  | cons t rest ih =>
    have entry : s.sleepers.v[passed.length]? = some t := by
      rw [split,List.getElem?_append_right (Nat.le_refl _),Nat.sub_self]
      rfl
    have inside : passed.length < s.sleepers.num := by
      rw [KArray.num,split,List.length_append,List.length_cons]
      omega
    simp only [List.length_cons,wakeupLoop,wp_bind,onSleepers,wp_zoom]
    apply wp_total (KArray.arrayGetguy_spec (s := ⟨s.sleepers,s.mem⟩) fits entry)
    rintro r h ⟨rfl,rfl⟩
    simp only [wp_read,Threads.withSleepers]
    by_cases asleep : s.sleepsOn addr r = true
    · have onAddr : (s.thread r).tSleepaddr = some addr := by
        simpa [Threads.sleepsOn] using asleep
      rw [if_pos onAddr,wp_bind,wp_zoom]
      apply wp_total (KArray.arrayRemove_spec (s := ⟨s.sleepers,s.mem⟩) fits inside)
      rintro _ h rfl
      rw [wp_bind,wp_mustSucceed]
      have removed : s.sleepers.v.eraseIdx passed.length = passed ++ rest := by
        rw [split,List.eraseIdx_append_of_length_le (Nat.le_refl _),Nat.sub_self]
        rfl
      have fits' : (⟨passed ++ rest,s.sleepers.max⟩ : KArray Tid).num ≤ s.sleepers.max := by
        have := congrArg List.length split
        simp only [KArray.num,List.length_append,List.length_cons] at fits this ⊢
        omega
      simp only [Threads.withSleepers,removed]
      refine wp_mono (makeRunnable_spec (s := { s with
        sleepers := ⟨passed ++ rest,s.sleepers.max⟩ }) valid r) ?_ ?_ ?_
      · intro _ u queued
        obtain ⟨rq,mem,rfl⟩ : ∃ rq mem, u = { s with
            sleepers := ⟨passed ++ rest,s.sleepers.max⟩, runqueue := rq, mem := mem } :=
          ⟨u.runqueue,u.mem,queued.rest⟩
        refine wp_mono (ih passed queued.valid fits' rfl) ?_ ?_ ?_
        · intro _ w more
          have first : Queued
              { s with sleepers := ⟨passed ++ rest.filter fun t => !s.sleepsOn addr t,
                s.sleepers.max⟩ } [r]
              { s with
                sleepers := ⟨passed ++ rest.filter fun t => !s.sleepsOn addr t,s.sleepers.max⟩,
                runqueue := rq, mem := mem } :=
            ⟨rfl,queued.valid,queued.list,queued.size,queued.calm,queued.grew⟩
          rw [List.filter_cons_of_pos asleep,List.filter_cons_of_neg (by simp [asleep])]
          exact first.trans more
        · exact fun _ _ => False.elim
        · rintro site w ⟨here,later,full,i,after,refused⟩
          have counted : rq.count = s.runqueue.count + 1 := queued.count
          have size : s.runqueue.size ≤ rq.size := queued.size
          have full : ¬rq.count + (rest.filter (s.sleepsOn addr)).length < rq.size := full
          rw [List.filter_cons_of_pos asleep,List.length_cons]
          have succeeds : mem.succeeds = s.mem.succeeds := queued.succeeds
          exact ⟨here,queued.calls.trans_lt later,by omega,i,queued.calls.trans after,
            succeeds ▸ refused⟩
      · rintro _ u ⟨full,refused,rfl⟩
        have full : ¬s.runqueue.count + 1 < s.runqueue.size := full
        rw [List.filter_cons_of_pos asleep,List.length_cons]
        exact ⟨trivial,Nat.lt_succ_self _,by omega,_,Nat.le_refl _,refused⟩
      · exact fun _ _ => False.elim
    · have notOn : ¬(s.thread r).tSleepaddr = some addr := by
        simpa [Threads.sleepsOn] using asleep
      rw [if_neg notOn]
      have next := ih (passed ++ [r]) valid fits (by rw [split,List.append_assoc]; rfl)
      rw [List.length_append,List.length_singleton] at next
      rw [List.filter_cons_of_neg asleep,List.filter_cons_of_pos (by simpa using asleep)]
      simpa only [List.append_assoc,List.singleton_append] using next

theorem threadWakeup_spec (valid : s.runqueue.Valid) (fits : s.sleepers.num ≤ s.sleepers.max)
    (addr : SleepAddr) :
    (threadWakeup addr).wp s
      (fun _ u => Queued { s with sleepers := s.stillAsleep addr } (s.woken addr) u) never
      (fun site u => site = .wakeupResult ∧ s.mem.calls < u.mem.calls ∧
        ¬s.runqueue.count + (s.woken addr).length < s.runqueue.size ∧ s.mem.Refuses) := by
  rw [threadWakeup,wp_bind,wp_read]
  exact wakeupLoop_spec addr s.sleepers.v [] valid fits rfl

/-- `thread_wakeup` takes exactly the threads that sleep on `addr` out of the sleepers, keeps the
order of the others, and appends those it took to the run queue in the order in which they slept. It
halts only when the run queue must grow and `kmalloc` refuses. -/
theorem thread_wakeup_wakes_exactly (valid : s.runqueue.Valid) (fits : s.sleepers.num ≤ s.sleepers.max)
    (addr : SleepAddr) :
    (threadWakeup addr).wp s
      (fun _ u =>
        u.sleepers.v = s.sleepers.v.filter (fun t => (s.thread t).tSleepaddr ≠ some addr) ∧
        u.runqueue.toList = s.runqueue.toList ++
          s.sleepers.v.filter (fun t => (s.thread t).tSleepaddr = some addr) ∧
        u.runqueue.Valid ∧ u.thread = s.thread ∧ u.curthread = s.curthread ∧ u.zombies = s.zombies ∧
        u.numthreads = s.numthreads)
      (fun _ _ => False)
      (fun site _ => site = .wakeupResult ∧ s.mem.Refuses ∧ s.runqueue.size ≤ s.runqueue.count +
        (s.sleepers.v.filter fun t => (s.thread t).tSleepaddr = some addr).length) := by
  refine wp_mono (threadWakeup_spec valid fits addr) ?_ (fun _ _ h => h) ?_
  · intro _ u queued
    obtain ⟨curthread,sleepers,zombies,numthreads,thread,-⟩ := queued.others
    refine ⟨?_,queued.list,queued.valid,thread,curthread,zombies,numthreads⟩
    rw [sleepers,Threads.stillAsleep]
    simp only [Threads.sleepsOn,ne_eq,decide_not]
  · rintro _ u ⟨here,-,full,refused⟩
    exact ⟨here,refused,Nat.le_of_not_lt full⟩

def drowsy : Threads :=
  { booted ⟨fun _ => true,0⟩ with
    sleepers := ⟨[1,3,2,4],4⟩
    thread := fun t => ⟨.sleep,some (if t = 2 then .other 0 else .lbolt),true,false,false⟩ }

theorem thread_wakeup_wakes_drowsy :
    (threadWakeup .lbolt).wp drowsy
      (fun _ u => u.sleepers.v = [2] ∧ u.runqueue.toList = [1,3,4]) (fun _ _ => False)
      fun _ _ => False := by
  refine wp_mono (thread_wakeup_wakes_exactly (s := drowsy) ⟨?_,?_,?_⟩ (Nat.le_refl 4) .lbolt) ?_
    (fun _ _ h => h) ?_
  · exact Nat.zero_lt_succ 31
  · exact Nat.zero_lt_succ 31
  · exact Nat.zero_lt_succ 31
  · rintro _ u ⟨asleep,ready,-⟩
    exact ⟨asleep,ready⟩
  · rintro _ u ⟨-,⟨i,-,refused⟩,-⟩
    exact Bool.noConfusion refused

/-! Switching -/

def Threads.off (s : Threads) (cur : Tid) (resume : Resume) : Threads :=
  { s.edit cur fun t => { t with resume := resume } with curthread := none }

section Switching
variable {cur : Tid} {nextstate : NextState} {resume : Resume} {ok : Unit → Threads → Prop}
  {err : Errno → Threads → Prop} {halt : ThreadPanic → Threads → Prop}

theorem wp_switchOut_idle (idle : s.curthread = none) :
    (switchOut nextstate resume).wp s ok err halt ↔ ok () s := by
  simp only [switchOut,wp_bind,wp_read,idle,wp_pure]

theorem wp_switchOut (running : s.curthread = some cur) :
    (switchOut nextstate resume).wp s ok err halt ↔
      (stash nextstate cur).wp (s.off cur resume) ok (fun _ u => halt .switchResult u) halt := by
  simp only [switchOut,wp_bind,wp_read,running,wp_modify,wp_mustSucceed]
  rfl

theorem threadYield_spec (running : s.curthread = some cur) (valid : s.runqueue.Valid) :
    threadYield.wp s (fun _ u => Queued (s.off cur .yield) [cur] u) never
      (fun site u => site = .switchResult ∧ s.mem.calls < u.mem.calls ∧
        ¬s.runqueue.count + 1 < s.runqueue.size) := by
  rw [threadYield,wp_switchOut running]
  apply wp_mono (makeRunnable_spec (s := s.off cur .yield) valid cur)
  · exact fun _ _ h => h
  · rintro _ u ⟨full,-,rfl⟩
    exact ⟨rfl,Nat.lt_succ_self _,full⟩
  · exact fun _ _ => False.elim

def Threads.sleepy (s : Threads) (cur : Tid) (addr : SleepAddr) : Threads :=
  (s.edit cur fun t => { t with tSleepaddr := some addr }).off cur .sleep

theorem threadSleep_spec (running : s.curthread = some cur)
    (fits : s.sleepers.num ≤ s.sleepers.max) (addr : SleepAddr) :
    (threadSleep addr).wp s
      (fun _ u => ∃ h, KArray.Added ⟨s.sleepers,s.mem⟩ cur h ∧
        u = (s.sleepy cur addr).withSleepers h) never
      (fun site _ => site = .switchResult ∧ ¬s.sleepers.num < s.sleepers.max) := by
  have still : (s.edit cur fun t => { t with tSleepaddr := some addr }).curthread = some cur := running
  simp only [threadSleep,wp_bind,wp_current running,wp_modify,wp_switchOut still,stash,
    onSleepers,wp_zoom]
  exact wp_safe (KArray.arrayAdd_spec (s := ⟨s.sleepers,s.mem⟩) fits cur)
    (fun _ h added => ⟨h,added,rfl⟩) (fun _ _ h => ⟨trivial,h.1⟩)

/-- The state in which `thread_exit` calls `mi_switch`, and where that stores the thread. -/
def Threads.leaving (s : Threads) (cur : Tid) : Threads :=
  { s.edit cur fun t => { t with tVmspace := false, tCwd := false } with
    numthreads := s.numthreads - 1 }

def Threads.dying (s : Threads) (cur : Tid) : Threads := (s.leaving cur).off cur .yield

theorem threadExit_spec (running : s.curthread = some cur) (counted : 0 < s.numthreads)
    (fits : s.zombies.num ≤ s.zombies.max) :
    threadExit.wp s
      (fun _ u => ∃ h, KArray.Added ⟨s.zombies,s.mem⟩ cur h ∧ u = (s.dying cur).withZombies h) never
      (fun site u => site = .switchResult ∧ s.mem.calls < u.mem.calls ∧
        ¬s.zombies.num < s.zombies.max) := by
  have positive : 0 < (s.edit cur fun t => { t with tVmspace := false, tCwd := false }).numthreads :=
    counted
  simp only [threadExit,wp_bind,wp_current running,wp_modify,wp_read,wp_assert,
    positive,decide_true,if_true,wp_put]
  have still : (s.leaving cur).curthread = some cur := running
  refine (wp_switchOut still).mpr ?_
  rw [stash,onZombies,wp_zoom]
  apply wp_safe (KArray.arrayAdd_spec (s := ⟨s.zombies,s.mem⟩) fits cur)
  · exact fun _ h added => ⟨h,added,rfl⟩
  · rintro _ h ⟨full,-,rfl⟩
    exact ⟨rfl,Nat.lt_succ_self _,full⟩

end Switching

/-! Exorcism -/

def Threads.exorcised (s : Threads) : Threads :=
  { s with
    zombies := ⟨[],if 16 < s.zombies.max then 0 else s.zombies.max⟩,
    destroyed := s.zombies.v.reverse ++ s.destroyed }

theorem exorcise_spec (fits : s.zombies.num ≤ s.zombies.max)
    (away : ∀ z ∈ s.zombies.v, s.curthread ≠ some z)
    (cleaned : ∀ z ∈ s.zombies.v, (s.thread z).tVmspace = false ∧ (s.thread z).tCwd = false) :
    exorcise.wp s (fun _ u => u = s.exorcised) never never := by
  simp only [exorcise,wp_bind,wp_read,wp_mustSucceed]
  have loop : (loop (fun i _ => exorciseTurn i) s.zombies.num 0 ()).wp s
      (fun _ u => u = { s with
        destroyed := (s.zombies.v.take s.zombies.num).reverse ++ s.destroyed }) never never := by
    refine wp_loop_zero (fun i _ (u : Threads) => u = { s with
      destroyed := (s.zombies.v.take i).reverse ++ s.destroyed }) _ _ rfl ?_
    rintro i _ u less rfl
    have entry : s.zombies.v[i]? = some s.zombies.v[i] := List.getElem?_eq_getElem less
    have mem : s.zombies.v[i] ∈ s.zombies.v := List.getElem_mem less
    simp only [exorciseTurn,wp_bind,onZombies,wp_zoom]
    apply wp_total (KArray.arrayGetguy_spec (s := ⟨s.zombies,s.mem⟩) fits entry)
    rintro z h ⟨rfl,rfl⟩
    simp only [wp_read,wp_assert,Threads.withZombies,threadDestroy,wp_bind,
      away _ mem,(cleaned _ mem).1,(cleaned _ mem).2,ne_eq,not_false_eq_true,decide_true,if_true,
      Bool.not_false,wp_put]
    rw [List.take_succ_eq_append_getElem less,List.reverse_append]
    rfl
  apply wp_total loop
  rintro _ u rfl
  simp only [onZombies,wp_zoom]
  apply wp_total (KArray.arraySetsize_zero (s := ⟨s.zombies,s.mem⟩) fits)
  rintro _ h rfl
  rw [KArray.num,List.take_length]
  rfl

/-! Being picked -/

def Threads.picked (s : Threads) (next : Tid) (q : Queue Tid) : Threads :=
  { s with curthread := some next, runqueue := q }

/-- What the thread does when it has the CPU again. -/
def Threads.returned (s : Threads) (next : Tid) : Resume → Threads
  | .start => s
  | .yield => s.exorcised
  | .sleep => s.exorcised.edit next fun t => { t with tSleepaddr := none }

theorem comeBack_spec {next : Tid} (fits : s.zombies.num ≤ s.zombies.max)
    (away : ∀ z ∈ s.zombies.v, s.curthread ≠ some z)
    (cleaned : ∀ z ∈ s.zombies.v, (s.thread z).tVmspace = false ∧ (s.thread z).tCwd = false)
    (resume : Resume) :
    (comeBack next resume).wp s (fun _ u => u = s.returned next resume) never never := by
  cases resume with
  | start => exact rfl
  | yield => exact exorcise_spec fits away cleaned
  | sleep =>
    rw [comeBack,wp_bind]
    apply wp_total (exorcise_spec fits away cleaned)
    rintro _ u rfl
    exact rfl

theorem switchIn_spec {next : Tid} {rest : List Tid} (valid : s.runqueue.Valid)
    (list : s.runqueue.toList = next :: rest) (fits : s.zombies.num ≤ s.zombies.max)
    (away : next ∉ s.zombies.v)
    (cleaned : ∀ z ∈ s.zombies.v, (s.thread z).tVmspace = false ∧ (s.thread z).tCwd = false) :
    switchIn.wp s
      (fun _ u => ∃ q : Queue Tid, q.Valid ∧ q.size = s.runqueue.size ∧ q.toList = rest ∧
        u = (s.picked next q).returned next (s.thread next).resume) never never := by
  simp only [switchIn,wp_bind,onRunqueue,wp_zoom]
  apply wp_total (Queue.qRemhead_spec (s := ⟨s.runqueue,s.mem⟩) valid list)
  rintro r ⟨q,mem⟩ ⟨rfl,validQ,size,listQ,same⟩
  obtain rfl : mem = s.mem := same
  simp only [wp_modify,wp_read]
  have awayQ : ∀ z ∈ (s.picked r q).zombies.v, (s.picked r q).curthread ≠ some z := by
    intro z mem same
    exact away (Option.some.inj same ▸ mem)
  exact wp_total (comeBack_spec (s := s.picked r q) fits awayQ cleaned _)
    (fun _ u done => ⟨q,validQ,size,listQ,done⟩)

/-! Forking -/

/-- `u` is `s` with more room in its containers; the structure of the thread to come may
have been written. -/
structure Roomier (s u : Threads) : Prop where
  cur : u.curthread = s.curthread
  valid : u.runqueue.Valid
  queue : u.runqueue.toList = s.runqueue.toList
  size : s.runqueue.size ≤ u.runqueue.size
  sleepers : u.sleepers.v = s.sleepers.v
  sleepersMax : s.sleepers.max ≤ u.sleepers.max
  zombies : u.zombies.v = s.zombies.v
  zombiesMax : s.zombies.max ≤ u.zombies.max
  count : u.numthreads = s.numthreads
  born : u.born = s.born
  destroyed : u.destroyed = s.destroyed
  thread : ∀ t, t ≠ s.born → u.thread t = s.thread t

theorem Roomier.refl (valid : s.runqueue.Valid) : Roomier s s :=
  ⟨rfl,valid,rfl,Nat.le_refl _,rfl,Nat.le_refl _,rfl,Nat.le_refl _,rfl,rfl,rfl,fun _ _ => rfl⟩

section
variable (roomier : Roomier s u)
include roomier

theorem Roomier.counts :
    u.runqueue.count = s.runqueue.count ∧ u.sleepers.num = s.sleepers.num ∧
      u.zombies.num = s.zombies.num := by
  refine ⟨?_,congrArg List.length roomier.sleepers,congrArg List.length roomier.zombies⟩
  rw [← Queue.length_toList,roomier.queue,Queue.length_toList]

theorem Roomier.tick (m : Kmem) :
    Roomier s { u with mem := m } := { roomier with }

theorem Roomier.editBorn (f : Thread → Thread) :
    Roomier s (u.edit s.born f) :=
  { roomier with
    thread := fun t other => (u.edit_other f other).trans (roomier.thread t other) }

theorem Roomier.withSleepers {h : Held (KArray Tid)}
    (list : h.it.v = u.sleepers.v) (max : u.sleepers.max ≤ h.it.max) :
    Roomier s (u.withSleepers h) :=
  { roomier with
    sleepers := list.trans roomier.sleepers
    sleepersMax := roomier.sleepersMax.trans max }

theorem Roomier.withZombies {h : Held (KArray Tid)}
    (list : h.it.v = u.zombies.v) (max : u.zombies.max ≤ h.it.max) : Roomier s (u.withZombies h) :=
  { roomier with
    zombies := list.trans roomier.zombies
    zombiesMax := roomier.zombiesMax.trans max }

theorem Roomier.withRunqueue {h : Held (Queue Tid)}
    (valid : h.it.Valid) (list : h.it.toList = u.runqueue.toList)
    (size : u.runqueue.size ≤ h.it.size) : Roomier s (u.withRunqueue h) :=
  { roomier with
    valid := valid
    queue := list.trans roomier.queue
    size := roomier.size.trans size }

end

structure Forked (s u : Threads) : Prop where
  reserved : ∃ w, Roomier s w ∧ s.numthreads + 1 ≤ w.sleepers.max ∧
    s.numthreads + 1 ≤ w.zombies.max ∧ s.numthreads + 1 ≤ w.runqueue.size ∧
    (w.thread s.born).resume = .start ∧
    ∃ x, Queued w [s.born] x ∧ u = { x with numthreads := x.numthreads + 1, born := x.born + 1 }

theorem threadCreate_spec (valid : s.runqueue.Valid) :
    threadCreate.wp s
      (fun r u => r = s.born ∧ Roomier s u ∧ u.thread s.born = ⟨.start,none,false,false,false⟩)
      (fun _ u => Roomier s u) never := by
  simp only [threadCreate,wp_bind,wp_kmalloc,wp_read,wp_modify,wp_pure]
  split
  · split
    · exact ⟨trivial,((Roomier.refl valid).tick _).editBorn _,Threads.edit_self _ _ _⟩
    · exact (Roomier.refl valid).tick _
  · exact (Roomier.refl valid).tick _

/-- The part of `thread_fork` that runs with interrupts off. -/
def forkReserve (newguy : Tid) : Thr Unit := do
  let s ← read
  onSleepers (KArray.arrayPreallocate (s.numthreads + 1))
  onZombies (KArray.arrayPreallocate (s.numthreads + 1))
  schedulerPreallocate (s.numthreads + 1)
  makeRunnable newguy

theorem forkReserve_spec {v : Threads} (room2 : Roomier s v)
    (sleepersFit : s.sleepers.num ≤ s.sleepers.max) (zombiesFit : s.zombies.num ≤ s.zombies.max) :
    (forkReserve s.born).wp v
      (fun _ x => ∃ w, Roomier s w ∧ s.numthreads + 1 ≤ w.sleepers.max ∧
        s.numthreads + 1 ≤ w.zombies.max ∧ s.numthreads + 1 ≤ w.runqueue.size ∧
        w.thread = v.thread ∧ Queued w [s.born] x)
      (fun _ u => Roomier s u) never := by
  obtain ⟨-,num2,znum2⟩ := room2.counts
  have count2 := room2.count
  rw [forkReserve,wp_bind,wp_read,wp_bind,onSleepers,wp_zoom]
  refine wp_mono (KArray.arrayPreallocate_spec (s := ⟨v.sleepers,v.mem⟩)
    (num2.trans_le (sleepersFit.trans room2.sleepersMax)) _) ?_ ?_ ?_
  · rintro _ h ⟨-,ath⟩
    have room3 : Roomier s (v.withSleepers h) :=
      room2.withSleepers (by rw [ath]) (by rw [ath]; exact KArray.le_newmax _ _ _)
    have reserved3 : s.numthreads + 1 ≤ (v.withSleepers h).sleepers.max := by
      rw [Threads.withSleepers,ath,count2]
      exact KArray.newmax_enough (Nat.le_add_left _ _)
    have fits3 : v.zombies.num ≤ v.zombies.max := znum2.trans_le (zombiesFit.trans room2.zombiesMax)
    rw [wp_bind,onZombies,wp_zoom]
    refine wp_mono (KArray.arrayPreallocate_spec (s := ⟨v.zombies,h.mem⟩) fits3 _) ?_ ?_ ?_
    · rintro _ k ⟨-,atk⟩
      have room4 : Roomier s ((v.withSleepers h).withZombies k) :=
        room3.withZombies (by rw [atk]; rfl) (by rw [atk]; exact KArray.le_newmax _ _ _)
      have reserved4 : s.numthreads + 1 ≤ ((v.withSleepers h).withZombies k).zombies.max := by
        rw [Threads.withZombies,atk,count2]
        exact KArray.newmax_enough (Nat.le_add_left _ _)
      rw [wp_bind,schedulerPreallocate,onRunqueue,wp_zoom]
      refine wp_mono (Queue.qPreallocate_spec (s := ⟨v.runqueue,k.mem⟩) room2.valid _) ?_ ?_ ?_
      · rintro _ q ⟨validQ,sizeQ,largerQ,listQ⟩
        have room5 : Roomier s (((v.withSleepers h).withZombies k).withRunqueue q) :=
          room4.withRunqueue validQ listQ largerQ
        have reserved5 : s.numthreads + 1 ≤ q.it.size := by
          rw [← count2]
          exact sizeQ
        refine wp_mono (makeRunnable_spec room5.valid s.born) ?_ ?_ ?_
        · exact fun _ x queued => ⟨_,room5,reserved3,reserved4,reserved5,rfl,queued⟩
        · rintro _ x ⟨-,-,rfl⟩
          exact room5.withRunqueue room5.valid rfl (Nat.le_refl _)
        · exact fun _ _ h => h
      · rintro _ q ⟨-,rfl⟩
        exact room4.withRunqueue room2.valid rfl (Nat.le_refl _)
      · exact fun _ _ => False.elim
    · rintro _ k ⟨-,rfl⟩
      exact room3.withZombies rfl (Nat.le_refl _)
    · exact fun _ _ => False.elim
  · rintro _ h ⟨-,rfl⟩
    exact room2.withSleepers rfl (Nat.le_refl _)
  · exact fun _ _ => False.elim

theorem wp_forkReserve {newguy : Tid} :
    (forkReserve newguy).wp s ok err halt ↔
      (onSleepers (KArray.arrayPreallocate (s.numthreads + 1))).wp s (fun _ t =>
        (onZombies (KArray.arrayPreallocate (s.numthreads + 1))).wp t (fun _ u =>
          (schedulerPreallocate (s.numthreads + 1)).wp u (fun _ v => (makeRunnable newguy).wp v ok err halt)
            err halt) err halt) err halt := by
  simp only [forkReserve,wp_bind,wp_read]

theorem threadFork_spec {cur : Tid} (running : s.curthread = some cur) (valid : s.runqueue.Valid)
    (sleepersFit : s.sleepers.num ≤ s.sleepers.max) (zombiesFit : s.zombies.num ≤ s.zombies.max) :
    threadFork.wp s (fun r u => r = s.born ∧ Forked s u) (fun _ u => Roomier s u) never := by
  simp only [threadFork,wp_bind]
  apply wp_mono (threadCreate_spec valid)
  · rintro newguy s1 ⟨rfl,room1,new1⟩
    rw [wp_kmalloc]
    split
    · have running1 : ({ s1 with mem := s1.mem.next } : Threads).curthread = some cur :=
        room1.cur.trans running
      rw [wp_current running1,wp_modify,wp_read]
      refine wp_forkReserve.mp (wp_mono
        (forkReserve_spec ((room1.tick _).editBorn _) sleepersFit zombiesFit) ?_ (fun _ _ h => h)
        fun _ _ h => h)
      rintro _ x ⟨w,room5,sleepersMax,zombiesMax,size,thread,queued⟩
      refine ⟨rfl,⟨w,room5,sleepersMax,zombiesMax,size,?_,x,queued,rfl⟩⟩
      rw [thread,Threads.edit_self]
      exact congrArg Thread.resume new1
    · exact room1.tick _
  · exact fun _ _ h => h
  · exact fun _ _ => False.elim

/-! Bootup -/

def unbooted (mem : Kmem) : Threads :=
  { booted mem with curthread := none, runqueue := ⟨0,0,0,fun _ => 0⟩, numthreads := 0, born := 0 }

theorem bootstrap_spec (mem : Kmem) :
    (do schedulerBootstrap; threadBootstrap : Thr Unit).wp (unbooted mem)
      (fun _ u => u = booted u.mem) never
      (fun site _ => (site = .schedulerBootstrap ∨ site = .threadBootstrap) ∧
        ∃ i < 6, mem.succeeds (mem.calls + i) = false) := by
  simp only [schedulerBootstrap,threadBootstrap,threadCreate,wp_bind,wp_mustSucceed,wp_kmalloc,
    wp_modify,wp_read,wp_pure]
  have same : Function.update (fun _ : Tid => (⟨.start,none,false,false,false⟩ : Thread)) 0
      ⟨.start,none,false,false,false⟩ = fun _ => ⟨.start,none,false,false,false⟩ :=
    Function.update_eq_self _ _
  -- six allocations, two of them in the scheduler
  repeat' split
  · simp only [unbooted,booted,Threads.edit,same]
  · exact ⟨Or.inr trivial,5,by decide,eq_false_of_ne_true ‹_›⟩
  · exact ⟨Or.inr trivial,4,by decide,eq_false_of_ne_true ‹_›⟩
  · exact ⟨Or.inr trivial,3,by decide,eq_false_of_ne_true ‹_›⟩
  · exact ⟨Or.inr trivial,2,by decide,eq_false_of_ne_true ‹_›⟩
  · exact ⟨Or.inl trivial,1,by decide,eq_false_of_ne_true ‹_›⟩
  · exact ⟨Or.inl trivial,0,by decide,eq_false_of_ne_true ‹_›⟩

end Calls

end Os161
