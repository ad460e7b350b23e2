import Os161.ThreadPlaces

/-! Runs of the thread system: where the threads are in every state reached, and which
operations still have to allocate. -/
namespace Os161

open Threads

section Queueing
variable {s u : Threads} {cur : Tid}

def Crowded (s : Threads) : Prop := s.numthreads = s.runqueue.size ∧ s.sleepers.v = []

def Flooded (s : Threads) (addr : SleepAddr) : Prop :=
  s.curthread = none ∧ s.numthreads = s.runqueue.size ∧ ∀ t ∈ s.sleepers.v, s.sleepsOn addr t = true

theorem Threads.Inv.yield_room (inv : s.Inv) (current : s.curthread = some cur) :
    s.runqueue.count + 1 < s.runqueue.size ↔ ¬Crowded s := by
  have counted := inv.counted
  have ring := inv.ring
  rw [length_live,current,Option.toList_some,List.length_singleton] at counted
  have empty : s.sleepers.v = [] ↔ s.sleepers.num = 0 := List.length_eq_zero_iff.symm
  rw [Crowded,empty]
  omega

theorem Threads.length_woken (s : Threads) (addr : SleepAddr) :
    (s.woken addr).length ≤ s.sleepers.num ∧ ((s.woken addr).length = s.sleepers.num ↔
      ∀ t ∈ s.sleepers.v, s.sleepsOn addr t = true) :=
  ⟨List.length_filter_le _ _,List.length_filter_eq_length_iff⟩

theorem Threads.Inv.wakeup_room (inv : s.Inv) (addr : SleepAddr) :
    s.runqueue.count + (s.woken addr).length < s.runqueue.size ↔ ¬Flooded s addr := by
  have counted := inv.counted
  have ring := inv.ring
  obtain ⟨le,all⟩ := s.length_woken addr
  rw [length_live] at counted
  rw [Flooded,← all]
  cases current : s.curthread with
  | none =>
    rw [current,Option.toList_none,List.length_nil] at counted
    simp only [true_and]
    omega
  | some c =>
    rw [current,Option.toList_some,List.length_singleton] at counted
    simp only [reduceCtorEq,false_and,not_false_eq_true,iff_true]
    omega

theorem Threads.Inv.yield_spec (inv : s.Inv) (current : s.curthread = some cur) :
    threadYield.wp s
      (fun _ u => Shuffled s u ∧ (¬Crowded s → u.mem = s.mem) ∧ (Crowded s → s.mem.Spent u.mem))
      never
      (fun site u => site = .switchResult ∧ s.mem.calls < u.mem.calls ∧ Crowded s) := by
  apply wp_mono (threadYield_spec current inv.valid)
  · intro _ u queued
    refine ⟨inv.yielded current queued,fun calm => ?_,fun crowded => ?_⟩
    · exact (queued.calm ((inv.yield_room current).mpr calm)).2
    · exact queued.grew fun room => (inv.yield_room current).mp room crowded
  · exact fun _ _ h => h
  · rintro _ u ⟨here,later,full⟩
    exact ⟨here,later,Classical.not_not.mp fun calm => full ((inv.yield_room current).mpr calm)⟩

theorem Threads.Inv.wakeup_spec (inv : s.Inv) (addr : SleepAddr) :
    (threadWakeup addr).wp s
      (fun _ u => Queued { s with sleepers := s.stillAsleep addr } (s.woken addr) u ∧
        (¬Flooded s addr → u.mem = s.mem ∧ u.runqueue.size = s.runqueue.size) ∧
        (Flooded s addr → s.mem.Spent u.mem)) never
      (fun site u => site = .wakeupResult ∧ s.mem.calls < u.mem.calls ∧ Flooded s addr) := by
  apply wp_mono (threadWakeup_spec inv.valid inv.sleepersFit addr)
  · intro _ u queued
    refine ⟨queued,fun calm => ?_,fun flooded => ?_⟩
    · exact (queued.calm ((inv.wakeup_room addr).mpr calm)).symm
    · exact queued.grew fun room => (inv.wakeup_room addr).mp room flooded
  · exact fun _ _ h => h
  · rintro _ u ⟨here,later,full,-⟩
    exact ⟨here,later,Classical.not_not.mp fun calm => full ((inv.wakeup_room addr).mpr calm)⟩

/-- This clock interrupt is the one that wakes the sleepers on `lbolt`. -/
def Threads.rings (s : Threads) : Prop := hz ≤ s.lboltCounter + 1

/-- After the clock interrupt every thread would be on the run queue, and there are as many
as the ring has slots. -/
def Overrun (s : Threads) : Prop :=
  s.numthreads = s.runqueue.size ∧ ∀ t ∈ s.sleepers.v, s.rings ∧ s.sleepsOn .lbolt t = true

theorem Threads.Inv.withClock (inv : s.Inv) (n : Nat) : ({ s with lboltCounter := n } : Threads).Inv :=
  { inv with }

theorem Threads.Shuffled.withClock {n : Nat} (shuffled : Shuffled { s with lboltCounter := n } u) :
    Shuffled s u := { shuffled with }

theorem hardclock_spec (inv : s.Inv) :
    hardclock.wp s
      (fun _ u => Shuffled s u ∧ (¬Overrun s → u.mem = s.mem) ∧ (Overrun s → s.mem.Spent u.mem))
      never
      (fun site u => (site = .switchResult ∨ site = .wakeupResult) ∧ s.mem.calls < u.mem.calls ∧
        Overrun s) := by
  simp only [hardclock,wp_bind,wp_modify,wp_read]
  by_cases rings : s.rings
  · rw [if_pos (show s.lboltCounter + 1 ≥ hz from rings)]
    have inv0 : ({ s with lboltCounter := 0 } : Threads).Inv := inv.withClock 0
    have overrun_iff : Overrun s ↔ s.numthreads = s.runqueue.size ∧
        ∀ t ∈ s.sleepers.v, s.sleepsOn .lbolt t = true := by
      simp only [Overrun,rings,true_and]
    simp only [wp_bind,wp_modify]
    apply wp_sure (inv0.wakeup_spec .lbolt)
    · rintro _ v ⟨queued,calm,grew⟩
      have woke : Shuffled s v := (inv0.woke queued).withClock
      have invV := inv.shuffled woke
      obtain ⟨curV,sleepersV,-⟩ := queued.others
      rcases Option.eq_none_or_eq_some s.curthread with current | ⟨c,current⟩
      · have flooded_iff : Flooded { s with lboltCounter := 0 } .lbolt ↔ Overrun s :=
          Iff.trans ⟨fun h => h.2,fun h => ⟨current,h⟩⟩ overrun_iff.symm
        rw [threadYield,wp_switchOut_idle (curV.trans current)]
        exact ⟨woke,fun h => (calm (flooded_iff.not.mpr h)).1,fun h => grew (flooded_iff.mpr h)⟩
      · obtain ⟨mem,size⟩ := calm fun flooded =>
          Option.some_ne_none c (current.symm.trans flooded.1)
        have crowded_iff : Crowded v ↔ Overrun s := by
          rw [overrun_iff,Crowded,woke.count,size,sleepersV]
          simp [Threads.stillAsleep,List.filter_eq_nil_iff,Threads.sleepsOn]
        apply wp_sure (invV.yield_spec (curV.trans current))
        · rintro _ u ⟨yielded,calmU,grewU⟩
          refine ⟨woke.trans yielded,fun h => ?_,fun h => ?_⟩
          · exact (calmU (crowded_iff.not.mpr h)).trans mem
          · have spent := grewU (crowded_iff.mpr h)
            rwa [mem] at spent
        · rintro _ u ⟨here,later,crowded⟩
          rw [mem] at later
          exact ⟨Or.inl here,later,crowded_iff.mp crowded⟩
    · rintro _ u ⟨here,later,-,full,all⟩
      exact ⟨Or.inr here,later,overrun_iff.mpr ⟨full,all⟩⟩
  · rw [if_neg (show ¬s.lboltCounter + 1 ≥ hz from rings)]
    have inv1 : ({ s with lboltCounter := s.lboltCounter + 1 } : Threads).Inv := inv.withClock _
    have overrun_iff : Overrun s ↔ Crowded { s with lboltCounter := s.lboltCounter + 1 } := by
      simp only [Overrun,Crowded,rings,false_and,imp_false,List.eq_nil_iff_forall_not_mem]
    rcases Option.eq_none_or_eq_some s.curthread with current | ⟨c,current⟩
    · have idle : ({ s with lboltCounter := s.lboltCounter + 1 } : Threads).curthread = none := current
      refine (wp_switchOut_idle idle).mpr ?_
      have calm : ¬Overrun s := by
        rintro exceeds
        obtain ⟨full,none⟩ := overrun_iff.mp exceeds
        have counted := inv.counted
        have less := Queue.count_lt inv.valid
        have empty : s.sleepers.num = 0 := by rw [KArray.num,none]; rfl
        rw [length_live,current,Option.toList_none,List.length_nil,empty] at counted
        have full : s.numthreads = s.runqueue.size := full
        omega
      refine ⟨?_,fun _ => rfl,fun exceeds => absurd exceeds calm⟩
      exact ⟨inv.valid,Nat.le_refl _,List.Perm.refl _,inv.sleepersFit,Nat.le_refl _,rfl,
        Nat.le_refl _,rfl,rfl,rfl,fun _ _ => ⟨rfl,rfl⟩⟩
    · rw [overrun_iff]
      apply wp_sure (inv1.yield_spec current)
      · rintro _ u ⟨yielded,calm,grew⟩
        exact ⟨yielded.withClock,calm,grew⟩
      · rintro _ u ⟨here,later,crowded⟩
        exact ⟨Or.inl here,later,crowded⟩

end Queueing

/-! Runs -/

section Runs
variable {s u : Threads} {op : ThreadOp}

def Threads.Dead (s : Threads) (t : Tid) : Prop := t ∈ s.zombies.v ∨ t ∈ s.destroyed

structure Aged (s u : Threads) : Prop where
  dead : ∀ t, s.Dead t → u.Dead t
  buried : ∀ t ∈ u.destroyed, t ∈ s.destroyed ∨ t ∈ s.zombies.v

theorem Threads.Shuffled.aged (shuffled : Shuffled s u) : Aged s u := by
  refine ⟨fun t dead => ?_,fun t mem => Or.inl (shuffled.destroyed ▸ mem)⟩
  rwa [Dead,shuffled.zombies,shuffled.destroyed]

structure Lived (s u : Threads) : Prop where
  inv : u.Inv
  aged : Aged s u

theorem Threads.Inv.lived (inv : s.Inv) (shuffled : Shuffled s u) : Lived s u :=
  ⟨inv.shuffled shuffled,shuffled.aged⟩

theorem Threads.Inv.fork_lived (inv : s.Inv) (forked : Forked s u) : Lived s u := by
  refine ⟨inv.forked forked,?_⟩
  obtain ⟨w,roomier,-,-,-,-,x,queued,rfl⟩ := forked.reserved
  obtain ⟨-,-,zombies,-,-,-,destroyed⟩ := queued.others
  refine ⟨fun t dead => ?_,fun t mem => Or.inl ?_⟩
  · show t ∈ x.zombies.v ∨ t ∈ x.destroyed
    rwa [zombies,destroyed,roomier.zombies,roomier.destroyed]
  · have mem : t ∈ x.destroyed := mem
    rwa [destroyed,roomier.destroyed] at mem

theorem Threads.Inv.exit_lived (inv : s.Inv) {cur : Tid} (current : s.curthread = some cur)
    {h : Held (KArray Tid)} (added : KArray.Added ⟨s.zombies,s.mem⟩ cur h) :
    Lived s ((s.dying cur).withZombies h) := by
  refine ⟨inv.exited current added,fun t dead => dead.imp_left fun zombie => ?_,fun t => Or.inl⟩
  have list : h.it.v = s.zombies.v ++ [cur] := added.list
  exact list ▸ List.mem_append_left _ zombie

theorem Threads.Inv.return_lived (inv : s.Inv) {next : Tid} (idle : s.curthread = none)
    {rest : List Tid} (list : s.runqueue.toList = next :: rest) {q : Queue Tid} (valid : q.Valid)
    (size : q.size = s.runqueue.size) (listQ : q.toList = rest) (resume : Resume) :
    Lived s ((s.picked next q).returned next resume) := by
  have picked := inv.picked idle list valid size listQ
  refine ⟨(inv.shuffled picked).returned rfl resume,?_⟩
  have exorcised : Aged s (s.picked next q).exorcised := by
    refine ⟨fun t dead => Or.inr ?_,fun t mem => ?_⟩
    · rcases dead with zombie | gone
      · exact List.mem_append_left _ (List.mem_reverse.mpr zombie)
      · exact List.mem_append_right _ gone
    · rcases List.mem_append.mp mem with zombie | gone
      · exact Or.inr (List.mem_reverse.mp zombie)
      · exact Or.inl gone
  cases resume with
  | start => exact picked.aged
  | yield => exact exorcised
  | sleep => exact ⟨exorcised.dead,exorcised.buried⟩

theorem Threads.Inv.switchIn_next (inv : s.Inv) (ready : s.runqueue.qEmpty = false) :
    switchIn.wp s
      (fun _ u => ∃ (next : Tid) (rest : List Tid) (q : Queue Tid),
        s.runqueue.toList = next :: rest ∧ q.Valid ∧ q.size = s.runqueue.size ∧ q.toList = rest ∧
        u = (s.picked next q).returned next (s.thread next).resume) never never := by
  have nonempty : s.runqueue.toList ≠ [] := fun none =>
    Bool.noConfusion (ready.symm.trans ((Queue.empty_iff inv.valid).mpr none))
  obtain ⟨next,rest,list⟩ := List.exists_cons_of_ne_nil nonempty
  have here : next ∈ s.live := by
    rw [live,list]
    exact List.mem_append_right _ (List.mem_append_left _ List.mem_cons_self)
  apply wp_total (switchIn_spec inv.valid list inv.zombiesFit (inv.notZombie here) inv.cleaned)
  rintro _ u ⟨q,picked⟩
  exact ⟨next,rest,q,list,picked⟩

/-- Every operation that returns keeps the invariant; the only panics are those of a list
that had to grow and could not. -/
theorem ThreadOp.run_spec (inv : s.Inv) (legal : op.Legal s) :
    op.run.wp s (fun _ u => Lived s u) (fun _ u => Lived s u)
      (fun site _ => site = .switchResult ∨ site = .wakeupResult) := by
  cases op with
  | fork =>
    obtain ⟨cur,current⟩ := Option.ne_none_iff_exists'.mp legal
    rw [ThreadOp.run,wp_bind]
    exact wp_safe (threadFork_spec current inv.valid inv.sleepersFit inv.zombiesFit)
      (fun _ _ h => inv.fork_lived h.2) (fun _ _ h => inv.lived (inv.roomier h))
  | yield =>
    obtain ⟨cur,current⟩ := Option.ne_none_iff_exists'.mp legal
    exact wp_sure (inv.yield_spec current) (fun _ _ h => inv.lived h.1) (fun _ _ h => Or.inl h.1)
  | sleep addr =>
    obtain ⟨cur,current⟩ := Option.ne_none_iff_exists'.mp legal
    apply wp_sure (threadSleep_spec current inv.sleepersFit addr)
    · rintro _ u ⟨h,added,rfl⟩
      exact inv.lived (inv.slept current added)
    · exact fun _ _ h => Or.inl h.1
  | wakeup addr =>
    exact wp_sure (inv.wakeup_spec addr) (fun _ _ h => inv.lived (inv.woke h.1))
      (fun _ _ h => Or.inr h.1)
  | exit =>
    obtain ⟨cur,current⟩ := Option.ne_none_iff_exists'.mp legal
    apply wp_sure (threadExit_spec current (inv.positive current) inv.zombiesFit)
    · rintro _ u ⟨h,added,rfl⟩
      exact inv.exit_lived current added
    · exact fun _ _ h => Or.inl h.1
  | hardclock =>
    exact wp_sure (hardclock_spec inv) (fun _ _ h => inv.lived h.1) (fun _ _ h => h.1)
  | switchIn =>
    obtain ⟨idle,ready⟩ := legal
    apply wp_total (inv.switchIn_next ready)
    rintro _ u ⟨next,rest,q,list,valid,size,listQ,rfl⟩
    exact inv.return_lived idle list valid size listQ _
  | setVmspace set =>
    obtain ⟨cur,current⟩ := Option.ne_none_iff_exists'.mp legal
    rw [ThreadOp.run,wp_bind,wp_current current]
    exact inv.lived (inv.edited current _)
  | setCwd set =>
    obtain ⟨cur,current⟩ := Option.ne_none_iff_exists'.mp legal
    rw [ThreadOp.run,wp_bind,wp_current current]
    exact inv.lived (inv.edited current _)

theorem ThreadStep.lived (inv : s.Inv) (step : ThreadStep s u) : Lived s u := by
  obtain ⟨op,legal,returns,rfl⟩ := step
  have spec := op.run_spec inv legal
  unfold Exec.wp at spec
  rcases ran : op.run s with ⟨value | code | site,t⟩ <;> rw [ran] at spec returns
  · exact spec
  · exact spec
  · exact absurd rfl (returns site)

theorem ThreadRun.inv (run : ThreadRun s u) (inv : s.Inv) : u.Inv := by
  induction run with
  | refl => exact inv
  | tail _ step ih => exact (step.lived ih).inv

/-- Bootup halts only where one of its six allocations fails. Whatever the threads do after it keeps
the invariant. -/
theorem boot_threads_sound (mem : Kmem) :
    (do schedulerBootstrap; threadBootstrap : Thr Unit).wp (unbooted mem)
      (fun _ u => ∀ v, ThreadRun u v → v.Inv) (fun _ _ => False)
      (fun site _ => (site = .schedulerBootstrap ∨ site = .threadBootstrap) ∧
        ∃ i < 6, mem.succeeds (mem.calls + i) = false) := by
  apply wp_sure (bootstrap_spec mem)
  · intro _ u same v run
    rw [same] at run
    exact run.inv (booted_inv _)
  · exact fun _ _ h => h

theorem ThreadRun.dead (run : ThreadRun s u) (inv : s.Inv) {t : Tid} (dead : s.Dead t) : u.Dead t := by
  induction run with
  | refl => exact dead
  | tail before step ih => exact (step.lived (ThreadRun.inv before inv)).aged.dead t ih

theorem Threads.Inv.dead_notLive (inv : s.Inv) {t : Tid} (dead : s.Dead t) : t ∉ s.live := by
  intro alive
  rcases dead with zombie | gone
  · exact inv.notZombie alive zombie
  · exact ((inv.census.mem_iff t).mp (List.mem_append_left _ alive)).2 gone

instance : Decidable (op.Legal s) := by
  cases op <;> unfold ThreadOp.Legal <;> infer_instance

def ThreadOp.Returns (op : ThreadOp) (s : Threads) : Bool :=
  decide (op.Legal s) && match (op.run s).1 with
    | .panic _ => false
    | _ => true

/-- A list of operations, one after the other, and whether all of them return. -/
def play : List ThreadOp → Threads → Threads
  | [], s => s
  | op :: ops, s => play ops (op.run s).2

def plays : List ThreadOp → Threads → Bool
  | [], _ => true
  | op :: ops, s => op.Returns s && plays ops (op.run s).2

theorem play_run (ops : List ThreadOp) (s : Threads) (fine : plays ops s = true) :
    ThreadRun s (play ops s) := by
  induction ops generalizing s with
  | nil => exact .refl
  | cons op ops ih =>
    simp only [plays,ThreadOp.Returns,Bool.and_eq_true,decide_eq_true_eq] at fine
    refine .head ⟨op,fine.1.1,fun site panics => ?_,rfl⟩ (ih _ fine.2)
    rw [panics] at fine
    exact Bool.noConfusion fine.1.2

def plenty : Kmem := ⟨fun _ => true,0⟩

def Threads.starved (s : Threads) : Threads := { s with mem := ⟨fun _ => false,s.mem.calls⟩ }

theorem Threads.Inv.starved (inv : s.Inv) : s.starved.Inv := { inv with }

/-- A thread that has been made and not destroyed is current, ready, asleep or a zombie, in
one way and once. -/
theorem threads_placed {mem : Kmem} (run : ThreadRun (booted mem) s) :
    (∀ t, (if s.curthread = some t then 1 else 0) + s.runqueue.toList.count t + s.sleepers.v.count t +
      s.zombies.v.count t = if t < s.born ∧ t ∉ s.destroyed then 1 else 0) ∧
    (∀ cur, s.curthread = some cur →
      s.numthreads = 1 + s.runqueue.toList.length + s.sleepers.v.length) ∧
    (∀ z ∈ s.zombies.v, ∀ u, ThreadRun s u →
      u.curthread ≠ some z ∧ z ∉ u.runqueue.toList ∧ z ∉ u.sleepers.v) ∧
    (∀ u, ThreadStep s u → ∀ t ∈ u.destroyed, t ∉ s.destroyed →
      t ∈ s.zombies.v ∧ s.curthread ≠ some t ∧ u.curthread ≠ some t) := by
  have inv := run.inv (booted_inv mem)
  refine ⟨fun t => ?_,fun cur current => ?_,fun z zombie u later => ?_,fun u step t gone here => ?_⟩
  · rw [← inv.census.count t]
    have current : s.curthread.toList.count t = if s.curthread = some t then 1 else 0 := by
      rcases Option.eq_none_or_eq_some s.curthread with none | ⟨c,some_⟩
      · rw [none]
        rfl
      · rw [some_,Option.toList_some,List.count_singleton]
        exact if_congr (by rw [beq_iff_eq,Option.some.injEq]) rfl rfl
    rw [live,List.count_append,List.count_append,List.count_append,current]
    omega
  · rw [inv.counted,length_live,current,Queue.length_toList,KArray.num,Nat.add_assoc]
    rfl
  · have dead := later.dead inv (Or.inl zombie)
    have notLive := (later.inv inv).dead_notLive dead
    rw [live,List.mem_append,List.mem_append,Option.mem_toList] at notLive
    exact ⟨fun h => notLive (Or.inl h),fun h => notLive (Or.inr (Or.inl h)),
      fun h => notLive (Or.inr (Or.inr h))⟩
  · obtain ⟨invU,aged⟩ := step.lived inv
    have zombie := (aged.buried t gone).resolve_left here
    have before := inv.dead_notLive (Or.inl zombie)
    have after := invU.dead_notLive (Or.inr gone)
    rw [live,List.mem_append,Option.mem_toList] at before after
    exact ⟨zombie,fun h => before (Or.inl h),fun h => after (Or.inl h)⟩

/-- The first thread forks and yields; the new thread runs and exits, and the first thread
destroys it. -/
def forkAndExit : List ThreadOp := [.fork,.yield,.switchIn,.exit,.switchIn]

theorem threads_placed_forkAndExit :
    (play forkAndExit (booted plenty)).born = 2 ∧
      (play forkAndExit (booted plenty)).destroyed = [1] ∧
      (play forkAndExit (booted plenty)).numthreads = 1 :=
  have counted := (threads_placed (play_run forkAndExit (booted plenty)
    (by decide +kernel))).2.1 0 (by decide +kernel)
  ⟨by decide +kernel,by decide +kernel,counted.trans (by decide +kernel)⟩

/-! The run queue -/

/-- The operations in which `mi_switch` or `thread_wakeup` calls `make_runnable`. -/
def ThreadOp.Queues : ThreadOp → Prop
  | .yield | .wakeup _ | .hardclock => True
  | _ => False

/-- The operation leaves all threads on the run queue, and they are as many as the ring has
slots. -/
def ThreadOp.Overfills (s : Threads) : ThreadOp → Prop
  | .yield => Crowded s
  | .wakeup addr => Flooded s addr
  | .hardclock => Overrun s
  | _ => False

theorem ThreadOp.queues_spec (inv : s.Inv) (legal : op.Legal s) (queues : op.Queues) :
    op.run.wp s
      (fun _ u => (¬op.Overfills s → u.mem = s.mem) ∧ (op.Overfills s → s.mem.Spent u.mem)) never
      (fun _ u => s.mem.calls < u.mem.calls ∧ op.Overfills s) := by
  cases op with
  | yield =>
    obtain ⟨cur,current⟩ := Option.ne_none_iff_exists'.mp legal
    exact wp_mono (inv.yield_spec current) (fun _ _ h => h.2) (fun _ _ h => h) (fun _ _ h => h.2)
  | wakeup addr =>
    exact wp_mono (inv.wakeup_spec addr) (fun _ _ h => ⟨fun calm => (h.2.1 calm).1,h.2.2⟩)
      (fun _ _ h => h) (fun _ _ h => h.2)
  | hardclock =>
    exact wp_mono (hardclock_spec inv) (fun _ _ h => h.2) (fun _ _ h => h) (fun _ _ h => h.2)
  | fork => exact queues.elim
  | sleep => exact queues.elim
  | exit => exact queues.elim
  | switchIn => exact queues.elim
  | setVmspace => exact queues.elim
  | setCwd => exact queues.elim

/-- Threads are put on the run queue without allocating, and whatever `kmalloc` would
return, exactly if they are fewer than the slots of the ring or some thread stays off the
queue. -/
theorem make_runnable_room_iff {mem : Kmem} (run : ThreadRun (booted mem) s) (op : ThreadOp)
    (legal : op.Legal s) (queues : op.Queues) :
    ((op.run s).2.mem.calls = s.mem.calls ↔ ¬op.Overfills s) ∧
      ((∀ site, (op.run s.starved).1 ≠ .panic site) ↔ ¬op.Overfills s) := by
  have inv := run.inv (booted_inv mem)
  have starvedLegal : op.Legal s.starved := by cases op <;> exact legal
  have same : op.Overfills s.starved ↔ op.Overfills s := by cases op <;> exact Iff.rfl
  constructor
  · have spec := op.queues_spec inv legal queues
    unfold Exec.wp at spec
    rcases ran : op.run s with ⟨value | code | site,t⟩ <;> rw [ran] at spec
    · refine ⟨fun still exceeds => ?_,fun calm => congrArg Kmem.calls (spec.1 calm)⟩
      exact Nat.ne_of_gt (spec.2 exceeds).later still
    · exact spec.elim
    · exact ⟨fun still => absurd still (Nat.ne_of_gt spec.1),fun calm => absurd spec.2 calm⟩
  · have spec := op.queues_spec inv.starved starvedLegal queues
    unfold Exec.wp at spec
    rw [← same]
    rcases ran : op.run s.starved with ⟨value | code | site,t⟩ <;> rw [ran] at spec
    · refine ⟨fun _ exceeds => ?_,fun _ site => nofun⟩
      obtain ⟨i,-,success⟩ := (spec.2 exceeds).success
      exact Bool.noConfusion success
    · exact spec.elim
    · exact ⟨fun none => absurd rfl (none site),fun calm => absurd spec.2 calm⟩

theorem make_runnable_room_iff_forked :
    ((ThreadOp.yield.run (play [.fork] (booted plenty))).2.mem.calls =
      (play [.fork] (booted plenty)).mem.calls ↔ ¬ThreadOp.yield.Overfills (play [.fork] (booted plenty))) :=
  (make_runnable_room_iff (play_run [.fork] (booted plenty) (by decide +kernel))
    .yield (by decide +kernel) trivial).1

def thirtyTwo : Threads := play (List.replicate 31 .fork) (booted plenty)

theorem thirtyTwo_yield : plays (List.replicate 31 .fork) (booted plenty) = true ∧
    thirtyTwo.numthreads = 32 ∧ thirtyTwo.runqueue.size = 32 ∧
    (ThreadOp.yield.run thirtyTwo).2.mem.calls = thirtyTwo.mem.calls + 1 ∧
    (ThreadOp.yield.run thirtyTwo.starved).1 = .panic .switchResult := by
  decide +kernel

/-! The zombies -/

/-- After the first fork there is room on the sleepers list for every thread. -/
theorem sleepers_room {mem : Kmem} (run : ThreadRun (booted mem) s) (forked : 1 < s.born)
    (addr : SleepAddr) (legal : (ThreadOp.sleep addr).Legal s) :
    s.numthreads ≤ s.sleepers.max ∧ s.sleepers.num + 1 ≤ s.numthreads ∧
      ∃ u, (ThreadOp.sleep addr).run s = (.ok (),u) ∧ u.mem = s.mem ∧
        u.sleepers.max = s.sleepers.max ∧ u.sleepers.num = s.sleepers.num + 1 := by
  have inv := run.inv (booted_inv mem)
  obtain ⟨cur,current⟩ := Option.ne_none_iff_exists'.mp legal
  have reserved := inv.reserved forked
  have fewer : s.sleepers.num + 1 ≤ s.numthreads := by
    rw [inv.counted,length_live,current,Option.toList_some,List.length_singleton]
    omega
  have room : s.sleepers.num < s.sleepers.max := Nat.lt_of_lt_of_le fewer reserved
  refine ⟨reserved,fewer,?_⟩
  have spec : ((ThreadOp.sleep addr).run).wp s (fun _ u => u.mem = s.mem ∧
      u.sleepers.max = s.sleepers.max ∧ u.sleepers.num = s.sleepers.num + 1)
      (fun _ _ => False) (fun _ _ => False) := by
    apply wp_sure (threadSleep_spec current inv.sleepersFit addr)
    · rintro _ u ⟨h,added,rfl⟩
      obtain ⟨max,mem⟩ := added.calm room
      refine ⟨mem,max,?_⟩
      rw [withSleepers,KArray.num,added.list,List.length_append]
      rfl
    · exact fun _ _ h => h.2 room
  obtain ⟨⟨⟩,u,ran,facts⟩ := wp_returns spec
  exact ⟨u,ran,facts⟩

theorem sleepers_room_forked :
    (play [.fork] (booted plenty)).numthreads ≤ (play [.fork] (booted plenty)).sleepers.max ∧
      ∃ u, (ThreadOp.sleep .lbolt).run (play [.fork] (booted plenty)) = (.ok (),u) ∧
        u.mem = (play [.fork] (booted plenty)).mem :=
  have room := sleepers_room (play_run [.fork] (booted plenty) (by decide +kernel))
    (by decide +kernel) .lbolt (by decide +kernel)
  ⟨room.1,room.2.2.imp fun _ h => ⟨h.1,h.2.1⟩⟩

end Runs

end Os161
