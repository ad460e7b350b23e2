import Os161.ThreadRuns

/-! `synch.c`: semaphores and locks on the thread system. A function runs with interrupts
off, so it is one call, except that `thread_sleep` gives up the CPU: a thread that slept in
one of the waiting loops goes on at the test of the loop when it is picked again. Locks and
semaphores are numbered. -/
namespace Os161

open Function

open Thr Threads

/-- `struct lock`. The source keeps the numbers 0 and 1 in the pointer `available`. -/
structure Lock where
  available : Nat
  holder : Option Tid
  deriving DecidableEq, Repr

/-- Where a thread is in `synch.c` between two of its calls: nowhere, in the loop of
`lock_acquire` or `P`, or behind the first test of `lock_try_acquire_alert`. -/
inductive SyncPc where
  | out | acquire (l : Nat) | tryAcquire (l : Nat) | proberen (k : Nat)
  deriving DecidableEq, Repr

/-- The state. `sems` holds the field `count`. The last three fields are history: the
threads that got a lock and have not released it, and the completed calls of `V` and `P`. -/
structure Sync where
  sys : Threads
  locks : Nat → Lock
  sems : Nat → Int
  pc : Tid → SyncPc
  inside : Nat → Tid → Bool
  vs : Nat → Nat
  ps : Nat → Nat

abbrev Syn (α : Type) := Exec Sync Errno ThreadPanic α

namespace Sync

def setPc (s : Sync) (t : Tid) (pc : SyncPc) : Sync := { s with pc := update s.pc t pc }

def setLock (s : Sync) (l : Nat) (lock : Lock) (t : Tid) (inside : Bool) : Sync :=
  { s with
    locks := update s.locks l lock
    inside := update s.inside l (update (s.inside l) t inside) }

def setSem (s : Sync) (k : Nat) (count : Int) : Sync :=
  { s with sems := update s.sems k count }

def withSys (s : Sync) (t : Threads) : Sync := { s with sys := t }

end Sync

namespace Syn

def onSys (call : Thr α) : Syn α := zoom Sync.sys Sync.withSys call

end Syn

open Syn

/-! Locks -/

def Lock.create : Lock := ⟨1,none⟩

def lockDoIHold (l : Nat) : Syn Bool := do
  let s ← read
  pure (decide ((s.locks l).holder = s.sys.curthread))

def lockTake (l : Nat) (cur : Tid) : Syn Unit := do
  let s ← read
  assert ((s.locks l).available = 1) .lockAvailable
  put ((s.setLock l ⟨0,some cur⟩ cur true).setPc cur .out)

/-- `lock_acquire` from the test of its loop on. -/
def lockAcquire (l : Nat) : Syn Unit := do
  let cur ← onSys current
  if ((← read).locks l).available = 0 then
    modify fun s => s.setPc cur (.acquire l)
    onSys (threadSleep (.lock l))
  else lockTake l cur

/-- `lock_try_acquire_alert` up to `splhigh`. -/
def lockTryAcquireAlert (l : Nat) : Syn Unit := do
  let cur ← onSys current
  if ← lockDoIHold l then pure ()
  else modify fun s => s.setPc cur (.tryAcquire l)

/-- The rest of `lock_try_acquire_alert`. -/
def lockTryFinish (l : Nat) : Syn Unit := do
  let cur ← onSys current
  if ((← read).locks l).available = 0 then modify fun s => s.setPc cur .out
  else lockTake l cur

def lockRelease (l : Nat) : Syn Unit := do
  let cur ← onSys current
  if ← lockDoIHold l then
    modify fun s => s.setLock l ⟨1,none⟩ cur false
    onSys (threadWakeup (.lock l))
  else pure ()

/-! Semaphores -/

namespace Semaphore

/-- `P` from the test of its loop on. -/
def P (k : Nat) : Syn Unit := do
  let cur ← onSys current
  let s ← read
  if s.sems k = 0 then
    put (s.setPc cur (.proberen k))
    onSys (threadSleep (.sem k))
  else
    assert (0 < s.sems k) .semZero
    put { (s.setSem k (s.sems k - 1)).setPc cur .out with
      ps := update s.ps k (s.ps k + 1) }

def V (k : Nat) : Syn Unit := do
  let s ← read
  let count := i32 (s.sems k + 1)
  put (s.setSem k count)
  assert (0 < count) .semOverflow
  onSys (threadWakeup (.sem k))
  modify fun t => { t with vs := update t.vs k (t.vs k + 1) }

end Semaphore

/-! Runs -/

/-- A call of `synch.c`, the continuation of one, or anything else the threads do. -/
inductive SyncOp where
  | acquire (l : Nat) | tryAcquire (l : Nat) | release (l : Nat) | P (k : Nat) | V (k : Nat)
  | resume
  | other (op : ThreadOp)

namespace SyncOp

def continue_ : SyncPc → Syn Unit
  | .out => pure ()
  | .acquire l => lockAcquire l
  | .tryAcquire l => lockTryFinish l
  | .proberen k => Semaphore.P k

def run : SyncOp → Syn Unit
  | .acquire l => lockAcquire l
  | .tryAcquire l => lockTryAcquireAlert l
  | .release l => lockRelease l
  | .P k => Semaphore.P k
  | .V k => Semaphore.V k
  | .resume => do
    let cur ← onSys current
    continue_ ((← read).pc cur)
  | .other op => onSys op.run

def Open (s : Sync) : Prop :=
  ∀ cur, s.sys.curthread = some cur → s.pc cur = .out ∨ ∃ l, s.pc cur = .tryAcquire l

def Out (s : Sync) : Prop := ∃ cur, s.sys.curthread = some cur ∧ s.pc cur = .out

/-- `thread_sleep` and `thread_wakeup` on locks and semaphores are called here only. -/
def Foreign : SleepAddr → Prop
  | .lock _ | .sem _ => False
  | _ => True

/-- `V`, wakeups and the clock also come as interrupts. -/
def Legal (s : Sync) : SyncOp → Prop
  | .acquire _ | .tryAcquire _ | .release _ | .P _ => Out s
  | .V _ => Open s
  | .resume => ∃ cur, s.sys.curthread = some cur ∧ s.pc cur ≠ .out
  | .other .switchIn => ThreadOp.switchIn.Legal s.sys
  | .other (.wakeup addr) => Open s ∧ Foreign addr
  | .other .hardclock => Open s
  | .other .yield => ThreadOp.yield.Legal s.sys ∧ Open s
  | .other (.sleep addr) => Out s ∧ Foreign addr
  | .other _ => Out s

end SyncOp

def SyncStep (s t : Sync) : Prop :=
  ∃ op : SyncOp, op.Legal s ∧ (∀ site, (op.run s).1 ≠ .panic site) ∧ t = (op.run s).2

abbrev SyncRun : Sync → Sync → Prop := Relation.ReflTransGen SyncStep

/-- After bootup, with all locks free and the semaphores at their initial counts. -/
def Sync.start (mem : Kmem) (counts : Nat → Int) : Sync where
  sys := booted mem
  locks := fun _ => Lock.create
  sems := counts
  pc := fun _ => .out
  inside := fun _ _ => false
  vs := fun _ => 0
  ps := fun _ => 0

/-! Who sleeps on what -/

section Asleep
variable {s u : Threads} {cur : Tid} {addr : SleepAddr}

def Threads.NoneOn (s : Threads) (addr : SleepAddr) : Prop :=
  ∀ t ∈ s.sleepers.v, s.sleepsOn addr t = false

/-- Only threads have gone to sleep that sleep on `allowed` addresses. -/
def Lulled (allowed : SleepAddr → Prop) (s u : Threads) : Prop :=
  ∀ t ∈ u.sleepers.v, (t ∈ s.sleepers.v ∧ (u.thread t).tSleepaddr = (s.thread t).tSleepaddr) ∨
    ∃ addr, allowed addr ∧ (u.thread t).tSleepaddr = some addr

theorem Threads.NoneOn.lulled {allowed : SleepAddr → Prop} (none : s.NoneOn addr)
    (lulled : Lulled allowed s u) (notAllowed : ¬allowed addr) : u.NoneOn addr := by
  intro t mem
  rcases lulled t mem with ⟨before,same⟩ | ⟨other,allow,sleeps⟩
  · have := none t before
    rwa [sleepsOn,← same] at this
  · simp only [sleepsOn,sleeps,Option.some.injEq,decide_eq_false_iff_not]
    rintro rfl
    exact notAllowed allow

def Calm (s u : Threads) : Prop := Lulled (fun _ => False) s u

theorem Calm.weaken {allowed : SleepAddr → Prop} (calm : Calm s u) : Lulled allowed s u :=
  fun t mem => (calm t mem).imp_right fun ⟨_,never,_⟩ => never.elim

theorem Calm.trans {w : Threads} (first : Calm s u) (second : Calm u w) : Calm s w := by
  intro t mem
  obtain ⟨mid,same⟩ := (second t mem).resolve_right fun ⟨_,never,_⟩ => never
  obtain ⟨before,same'⟩ := (first t mid).resolve_right fun ⟨_,never,_⟩ => never
  exact Or.inl ⟨before,same.trans same'⟩

theorem Calm.of_subset (sleepers : ∀ t ∈ u.sleepers.v, t ∈ s.sleepers.v)
    (thread : ∀ t ∈ s.sleepers.v, (u.thread t).tSleepaddr = (s.thread t).tSleepaddr) : Calm s u :=
  fun t mem => Or.inl ⟨sleepers t mem,thread t (sleepers t mem)⟩

theorem edit_sleepaddr (s : Threads) (t v : Tid) (f : Thread → Thread)
    (same : ∀ x, (f x).tSleepaddr = x.tSleepaddr) :
    ((s.edit t f).thread v).tSleepaddr = (s.thread v).tSleepaddr := by
  by_cases h : v = t
  · rw [h,edit_self,same]
  · rw [edit_other _ _ h]

theorem Calm.edit (s : Threads) (t : Tid) (f : Thread → Thread)
    (same : ∀ x, (f x).tSleepaddr = x.tSleepaddr) : Calm s (s.edit t f) :=
  .of_subset (fun _ mem => mem) fun v _ => edit_sleepaddr s t v f same

theorem Calm.queued {l : List Tid} (queued : Queued s l u) : Calm s u := by
  obtain ⟨-,sleepers,-,-,thread,-⟩ := queued.others
  exact .of_subset (fun t mem => sleepers ▸ mem) fun t _ => by rw [thread]

theorem Calm.woken (s : Threads) (addr : SleepAddr) :
    Calm s { s with sleepers := s.stillAsleep addr } :=
  .of_subset (fun _ mem => List.mem_of_mem_filter mem) fun _ _ => rfl

theorem threadWakeup_asleep (inv : s.Inv) (addr : SleepAddr) :
    (threadWakeup addr).wp s (fun _ u => u.Inv ∧ Calm s u ∧ u.NoneOn addr) never
      (fun _ _ => True) := by
  apply wp_through (inv.wakeup_spec addr)
  rintro _ u ⟨queued,-⟩
  refine ⟨inv.shuffled (inv.woke queued),(Calm.woken s addr).trans (.queued queued),fun t mem => ?_⟩
  obtain ⟨-,sleepers,-,-,thread,-⟩ := queued.others
  rw [sleepers] at mem
  have asleep : s.sleepsOn addr t = false := by simpa using (List.mem_filter.mp mem).2
  rw [sleepsOn,thread]
  exact asleep

theorem threadSleep_asleep (inv : s.Inv) (current : s.curthread = some cur) (addr : SleepAddr) :
    (threadSleep addr).wp s (fun _ u => u.Inv ∧ Lulled (· = addr) s u) never
      (fun _ _ => True) := by
  apply wp_through (threadSleep_spec current inv.sleepersFit addr)
  rintro _ u ⟨h,added,rfl⟩
  refine ⟨inv.shuffled (inv.slept current added),fun t mem => ?_⟩
  have mem : t ∈ s.sleepers.v ++ [cur] := added.list ▸ mem
  rcases List.mem_append.mp mem with before | self
  · have other : t ≠ cur := fun same => inv.awake current (same ▸ before)
    refine Or.inl ⟨before,?_⟩
    simp only [withSleepers,sleepy,off,edit_other _ _ other]
  · refine Or.inr ⟨addr,rfl,?_⟩
    rw [List.mem_singleton.mp self]
    simp only [withSleepers,sleepy,off,edit_self]

theorem Calm.off (s : Threads) (cur : Tid) (resume : Resume) : Calm s (s.off cur resume) :=
  .of_subset (fun _ mem => mem) fun v _ =>
    edit_sleepaddr s cur v (fun t => { t with resume := resume }) fun _ => rfl

theorem threadYield_calm (inv : s.Inv) :
    threadYield.wp s (fun _ u => Calm s u) never (fun _ _ => True) := by
  rcases Option.eq_none_or_eq_some s.curthread with idle | ⟨c,current⟩
  · rw [threadYield,wp_switchOut_idle idle]
    exact .of_subset (fun _ mem => mem) fun _ _ => rfl
  · exact wp_mono (threadYield_spec current inv.valid)
      (fun _ _ queued => (Calm.off s c .yield).trans (.queued queued)) (fun _ _ h => h)
      (fun _ _ _ => trivial)

theorem hardclock_calm (inv : s.Inv) :
    hardclock.wp s (fun _ u => Calm s u) never (fun _ _ => True) := by
  simp only [hardclock,wp_bind,wp_modify,wp_read]
  split
  · simp only [wp_bind,wp_modify]
    apply wp_imp (threadWakeup_asleep (inv.withClock 0) .lbolt)
    rintro _ v ⟨invV,calm,-⟩
    exact wp_imp (threadYield_calm invV) (fun _ _ h => Calm.trans calm h)
  · exact threadYield_calm (inv.withClock _)

theorem ThreadOp.run_asleep (inv : s.Inv) {op : ThreadOp} (legal : op.Legal s) :
    op.run.wp s (fun _ u => Lulled (fun addr => op = .sleep addr) s u)
      (fun _ u => Lulled (fun addr => op = .sleep addr) s u) (fun _ _ => True) := by
  have roomier_calm : ∀ {w}, Roomier s w → Calm s w := fun roomier =>
    .of_subset (fun t mem => roomier.sleepers ▸ mem) fun t mem => by
      have born : t ≠ s.born := fun same => inv.census.unborn (same ▸
        List.mem_append_left _ (List.mem_append_right _ (List.mem_append_right _ mem)))
      rw [roomier.thread t born]
  cases op with
  | fork =>
    obtain ⟨cur,current⟩ := Option.ne_none_iff_exists'.mp legal
    rw [ThreadOp.run,wp_bind]
    apply wp_safe (threadFork_spec current inv.valid inv.sleepersFit inv.zombiesFit)
    · rintro _ u ⟨-,forked⟩
      obtain ⟨w,roomier,-,-,-,-,x,queued,rfl⟩ := forked.reserved
      exact ((roomier_calm roomier).trans (.queued queued)).weaken
    · exact fun _ _ roomier => (roomier_calm roomier).weaken
  | yield =>
    exact wp_through (threadYield_calm inv) (fun _ _ h => h.weaken)
  | sleep addr =>
    obtain ⟨cur,current⟩ := Option.ne_none_iff_exists'.mp legal
    refine wp_through (threadSleep_asleep inv current addr) (fun _ _ h t mem => ?_)
    rcases h.2 t mem with before | ⟨_,same,sleeps⟩
    · exact Or.inl before
    · exact Or.inr ⟨addr,rfl,same ▸ sleeps⟩
  | wakeup addr =>
    exact wp_through (threadWakeup_asleep inv addr) (fun _ _ h => h.2.1.weaken)
  | exit =>
    obtain ⟨cur,current⟩ := Option.ne_none_iff_exists'.mp legal
    apply wp_through (threadExit_spec current (inv.positive current) inv.zombiesFit)
    rintro _ u ⟨h,-,rfl⟩
    have left : Calm s (s.leaving cur) :=
      .of_subset (fun _ mem => mem) fun v _ =>
        edit_sleepaddr s cur v (fun t => { t with tVmspace := false, tCwd := false }) fun _ => rfl
    exact (left.trans (Calm.off _ cur .yield)).weaken
  | hardclock =>
    exact wp_through (hardclock_calm inv) (fun _ _ h => h.weaken)
  | switchIn =>
    obtain ⟨-,ready⟩ := legal
    apply wp_through (inv.switchIn_next ready)
    rintro _ u ⟨next,rest,q,list,-,-,-,rfl⟩
    have here : next ∈ s.runqueue.toList := list ▸ List.mem_cons_self
    apply Calm.weaken
    cases (s.thread next).resume with
    | start => exact .of_subset (fun _ mem => mem) fun _ _ => rfl
    | yield => exact .of_subset (fun _ mem => mem) fun _ _ => rfl
    | sleep =>
      refine .of_subset (fun _ mem => mem) fun t mem => ?_
      -- the thread that comes back from its sleep was on the run queue
      have nodup := (List.nodup_append.mp (List.nodup_append.mp inv.census.nodup).1).2.1
      have other : t ≠ next := fun same =>
        (List.nodup_append.mp nodup).2.2 next here t mem same.symm
      rw [returned,edit_other _ _ other]
      rfl
  | setVmspace set =>
    obtain ⟨cur,current⟩ := Option.ne_none_iff_exists'.mp legal
    rw [ThreadOp.run,wp_bind,wp_current current]
    exact (Calm.edit s cur (fun t => { t with tVmspace := set }) fun _ => rfl).weaken
  | setCwd set =>
    obtain ⟨cur,current⟩ := Option.ne_none_iff_exists'.mp legal
    rw [ThreadOp.run,wp_bind,wp_current current]
    exact (Calm.edit s cur (fun t => { t with tCwd := set }) fun _ => rfl).weaken

end Asleep

/-! The invariant -/

namespace Sync

def LockFree (s : Sync) (l : Nat) : Prop :=
  s.locks l = ⟨1,none⟩ ∧ s.sys.NoneOn (.lock l) ∧ ∀ t, s.inside l t = false

def LockHeld (s : Sync) (l : Nat) (t : Tid) : Prop :=
  s.locks l = ⟨0,some t⟩ ∧ ∀ v, s.inside l v = decide (v = t)

structure SemOk (s : Sync) (k : Nat) (initial : Int) : Prop where
  account : s.sems k = initial + s.vs k - s.ps k
  nonneg : 0 ≤ s.sems k
  awake : s.sems k ≠ 0 → s.sys.NoneOn (.sem k)

/-- The counts are right as long as no more `V`s have been made than an `int` can count. -/
structure Inv (counts : Nat → Int) (s : Sync) : Prop where
  sys : s.sys.Inv
  lock : ∀ l, s.LockFree l ∨ ∃ t, s.LockHeld l t
  sem : ∀ k, (s.vs k : Int) < 2^31 - counts k → s.SemOk k (counts k)

end Sync

section Invariant
open Sync
variable {counts : Nat → Int} {s u : Sync} {cur : Tid}

theorem start_inv (mem : Kmem) (nonneg : ∀ k, 0 ≤ counts k) : (Sync.start mem counts).Inv counts where
  sys := booted_inv mem
  lock := fun _ => Or.inl ⟨rfl,fun _ never => absurd never List.not_mem_nil,fun _ => rfl⟩
  sem := fun k _ => ⟨by simp [start],nonneg k,fun _ _ never => absurd never List.not_mem_nil⟩

theorem lock_kept {l : Nat} (ok : s.LockFree l ∨ ∃ t, s.LockHeld l t) (locks : u.locks l = s.locks l)
    (inside : u.inside l = s.inside l)
    (awake : s.LockFree l → u.sys.NoneOn (.lock l)) : u.LockFree l ∨ ∃ t, u.LockHeld l t := by
  rcases ok with free | ⟨t,held⟩
  · exact Or.inl ⟨locks.trans free.1,awake free,inside ▸ free.2.2⟩
  · exact Or.inr ⟨t,locks.trans held.1,inside ▸ held.2⟩

theorem sem_kept {k : Nat} {initial : Int} (ok : s.SemOk k initial) (sems : u.sems k = s.sems k)
    (vs : u.vs k = s.vs k) (ps : u.ps k = s.ps k)
    (awake : s.sems k ≠ 0 → u.sys.NoneOn (.sem k)) : u.SemOk k initial where
  account := by rw [sems,vs,ps]; exact ok.account
  nonneg := sems ▸ ok.nonneg
  awake := sems ▸ awake

theorem Sync.Inv.kept {allowed : SleepAddr → Prop} (inv : s.Inv counts) (sys : u.sys.Inv)
    (locks : u.locks = s.locks) (inside : u.inside = s.inside) (sems : u.sems = s.sems)
    (vs : u.vs = s.vs) (ps : u.ps = s.ps) (lulled : Lulled allowed s.sys u.sys)
    (lockFree : ∀ l, s.LockFree l → ¬allowed (.lock l))
    (semFree : ∀ k, s.sems k ≠ 0 → ¬allowed (.sem k)) : u.Inv counts where
  sys := sys
  lock := fun l => lock_kept (inv.lock l) (congrFun locks l) (congrFun inside l)
    fun free => free.2.1.lulled lulled (lockFree l free)
  sem := fun k few => by
    have ok := inv.sem k (vs ▸ few)
    exact sem_kept ok (congrFun sems k) (congrFun vs k) (congrFun ps k)
      fun some_ => (ok.awake some_).lulled lulled (semFree k some_)

theorem Sync.Inv.setPc (inv : s.Inv counts) (pc : SyncPc) : (s.setPc cur pc).Inv counts where
  sys := inv.sys
  lock := inv.lock
  sem := fun k few => sem_kept (inv.sem k few) rfl rfl rfl (inv.sem k few).awake

theorem wp_onSys {α : Type} {call : Thr α} {ok : α → Sync → Prop} {err : Errno → Sync → Prop}
    {halt : ThreadPanic → Sync → Prop} :
    (onSys call).wp s ok err halt ↔ call.wp s.sys (fun r t => ok r (s.withSys t))
      (fun e t => err e (s.withSys t)) (fun site t => halt site (s.withSys t)) := by
  rw [onSys,wp_zoom]

theorem wp_onSys_current {ok : Tid → Sync → Prop} {err : Errno → Sync → Prop}
    {halt : ThreadPanic → Sync → Prop} (current : s.sys.curthread = some cur) :
    (onSys Thr.current).wp s ok err halt ↔ ok cur s := by
  rw [wp_onSys,wp_current current]
  rfl

theorem sleep_spec (inv : s.Inv counts) (current : s.sys.curthread = some cur) (pc : SyncPc)
    (addr : SleepAddr) (lockFree : ∀ l, s.LockFree l → .lock l ≠ addr)
    (semFree : ∀ k, s.sems k ≠ 0 → .sem k ≠ addr) :
    (onSys (threadSleep addr)).wp (s.setPc cur pc) (fun _ u => u.Inv counts) never
      (fun _ _ => True) := by
  rw [wp_onSys]
  exact wp_imp (threadSleep_asleep (s := s.sys) inv.sys current addr)
    (fun _ _ h => inv.kept h.1 rfl rfl rfl rfl rfl h.2 lockFree semFree)

theorem lockTake_spec (inv : s.Inv counts) {l : Nat} (available : (s.locks l).available ≠ 0) :
    (lockTake l cur).wp s (fun _ u => u.Inv counts) never never := by
  obtain ⟨free,awake,nobody⟩ : s.LockFree l := by
    refine (inv.lock l).resolve_right ?_
    rintro ⟨t,held,-⟩
    exact available (by rw [held])
  have one : (s.locks l).available = 1 := by rw [free]
  simp only [lockTake,wp_bind,wp_read,wp_assert,one,decide_true,if_true,wp_put]
  refine ⟨inv.sys,fun m => ?_,fun k few => ?_⟩
  · by_cases same : m = l
    · subst same
      refine Or.inr ⟨cur,update_self _ _ _,fun v => ?_⟩
      simp only [setPc,setLock,update_self]
      by_cases own : v = cur
      · rw [own,update_self,decide_eq_true rfl]
      · rw [update_of_ne own,nobody v,decide_eq_false own]
    · exact lock_kept (inv.lock m) (update_of_ne same _ _) (update_of_ne same _ _)
        fun h => h.2.1
  · exact sem_kept (inv.sem k few) rfl rfl rfl (inv.sem k few).awake

theorem lockAcquire_spec (inv : s.Inv counts) (current : s.sys.curthread = some cur) (l : Nat) :
    (lockAcquire l).wp s (fun _ u => u.Inv counts) never (fun _ _ => True) := by
  simp only [lockAcquire,wp_bind,wp_onSys_current current,wp_read]
  split
  · rename_i taken
    simp only [wp_bind,wp_modify]
    refine sleep_spec inv current _ _ (fun m free => ?_) (fun k _ => ?_)
    · rintro ⟨rfl⟩
      rw [free.1] at taken
      exact absurd taken (by decide)
    · rintro ⟨⟩
  · rename_i available
    exact wp_mono (lockTake_spec inv available) (fun _ _ h => h) (fun _ _ h => h)
      (fun _ _ _ => trivial)

theorem lockTryFinish_spec (inv : s.Inv counts) (current : s.sys.curthread = some cur) (l : Nat) :
    (lockTryFinish l).wp s (fun _ u => u.Inv counts) never (fun _ _ => True) := by
  simp only [lockTryFinish,wp_bind,wp_onSys_current current,wp_read]
  split
  · exact inv.setPc .out
  · rename_i available
    exact wp_mono (lockTake_spec inv available) (fun _ _ h => h) (fun _ _ h => h)
      (fun _ _ _ => trivial)

theorem lockTryAcquireAlert_spec (inv : s.Inv counts) (current : s.sys.curthread = some cur) (l : Nat) :
    (lockTryAcquireAlert l).wp s (fun _ u => u.Inv counts) never (fun _ _ => True) := by
  simp only [lockTryAcquireAlert,lockDoIHold,wp_bind,wp_onSys_current current,wp_read,
    wp_pure]
  split
  · exact inv
  · exact inv.setPc (.tryAcquire l)

theorem lockRelease_spec (inv : s.Inv counts) (current : s.sys.curthread = some cur) (l : Nat) :
    (lockRelease l).wp s (fun _ u => u.Inv counts) never (fun _ _ => True) := by
  simp only [lockRelease,lockDoIHold,wp_bind,wp_onSys_current current,wp_read,
    wp_pure,current]
  split
  · rename_i holds
    have holds : (s.locks l).holder = some cur := by simpa using holds
    obtain ⟨t,held,inside⟩ : ∃ t, s.LockHeld l t := by
      refine (inv.lock l).resolve_left fun free => ?_
      rw [free.1] at holds
      cases holds
    obtain rfl : t = cur := by
      rw [held] at holds
      exact Option.some.inj holds
    simp only [wp_bind,wp_modify,wp_onSys]
    apply wp_imp (threadWakeup_asleep (s := s.sys) inv.sys (.lock l))
    rintro _ w ⟨sys,calm,awake⟩
    refine ⟨sys,fun m => ?_,fun k few => ?_⟩
    · by_cases same : m = l
      · subst same
        refine Or.inl ⟨update_self _ _ _,awake,fun v => ?_⟩
        simp only [withSys,setLock,update_self]
        by_cases own : v = t
        · rw [own,update_self]
        · rw [update_of_ne own,inside v,decide_eq_false own]
      · exact lock_kept (inv.lock m) (update_of_ne same _ _) (update_of_ne same _ _)
          fun h => h.2.1.lulled calm not_false
    · have ok := inv.sem k few
      exact sem_kept ok rfl rfl rfl fun some_ => (ok.awake some_).lulled calm not_false
  · exact inv

theorem P_spec (inv : s.Inv counts) (current : s.sys.curthread = some cur) (k : Nat) :
    (Semaphore.P k).wp s (fun _ u => u.Inv counts) never (fun _ _ => True) := by
  simp only [Semaphore.P,wp_bind,wp_onSys_current current,wp_read]
  split
  · rename_i zero
    simp only [wp_bind,wp_put]
    refine sleep_spec inv current _ _ (fun l _ => ?_) (fun j some_ => ?_)
    · rintro ⟨⟩
    · rintro ⟨rfl⟩
      exact some_ zero
  · rename_i notZero
    simp only [wp_bind,wp_assert,wp_put]
    split
    · refine ⟨inv.sys,inv.lock,fun j few => ?_⟩
      have ok := inv.sem j few
      by_cases same : j = k
      · subst same
        have account := ok.account
        have nonneg := ok.nonneg
        refine ⟨?_,?_,fun _ => ok.awake notZero⟩
        · simp only [setPc,setSem,update_self]
          push_cast
          omega
        · simp only [setPc,setSem,update_self]
          omega
      · exact sem_kept ok (update_of_ne same _ _) rfl (update_of_ne same _ _) ok.awake
    · trivial

theorem V_spec (inv : s.Inv counts) (k : Nat) :
    (Semaphore.V k).wp s (fun _ u => u.Inv counts) never (fun _ _ => True) := by
  simp only [Semaphore.V,wp_bind,wp_read,wp_put,wp_assert]
  split
  · simp only [wp_onSys]
    apply wp_imp (threadWakeup_asleep (s := s.sys) inv.sys (.sem k))
    rintro _ w ⟨sys,calm,awake⟩
    simp only [wp_modify]
    refine ⟨sys,fun l => lock_kept (inv.lock l) rfl rfl fun h => h.2.1.lulled calm not_false,
      fun j few => ?_⟩
    by_cases same : j = k
    · subst same
      simp only [withSys,setSem,update_self] at few
      push_cast at few
      have ok := inv.sem j (by omega)
      have account := ok.account
      have nonneg := ok.nonneg
      have exact_ : i32 (s.sems j + 1) = s.sems j + 1 := i32_of_bounds (by omega) (by omega)
      refine ⟨?_,?_,fun _ => awake⟩
      · simp only [withSys,setSem,update_self,exact_]
        push_cast
        omega
      · simp only [withSys,setSem,update_self,exact_]
        omega
    · have few : (s.vs j : Int) < 2^31 - counts j := by
        simpa only [withSys,setSem,update_of_ne same] using few
      have ok := inv.sem j few
      exact sem_kept ok (update_of_ne same _ _) (update_of_ne same _ _) rfl
        fun some_ => (ok.awake some_).lulled calm not_false
  · trivial

theorem SyncOp.run_spec (inv : s.Inv counts) {op : SyncOp} (legal : op.Legal s) :
    op.run.wp s (fun _ u => u.Inv counts) (fun _ u => u.Inv counts) (fun _ _ => True) := by
  cases op with
  | acquire l =>
    obtain ⟨cur,current,-⟩ := legal
    exact wp_errless (lockAcquire_spec inv current l)
  | tryAcquire l =>
    obtain ⟨cur,current,-⟩ := legal
    exact wp_errless (lockTryAcquireAlert_spec inv current l)
  | release l =>
    obtain ⟨cur,current,-⟩ := legal
    exact wp_errless (lockRelease_spec inv current l)
  | P k =>
    obtain ⟨cur,current,-⟩ := legal
    exact wp_errless (P_spec inv current k)
  | V k =>
    exact wp_errless (V_spec inv k)
  | resume =>
    obtain ⟨cur,current,-⟩ := legal
    rw [SyncOp.run,wp_bind,wp_onSys_current current,wp_bind,wp_read]
    cases s.pc cur with
    | out => exact inv
    | acquire l =>
      exact wp_errless (lockAcquire_spec inv current l)
    | tryAcquire l =>
      exact wp_errless (lockTryFinish_spec inv current l)
    | proberen k =>
      exact wp_errless (P_spec inv current k)
  | other op =>
    have threadLegal : op.Legal s.sys := by
      have running : SyncOp.Out s → s.sys.curthread ≠ none := fun ⟨_,current,_⟩ =>
        current ▸ Option.some_ne_none _
      cases op with
      | fork => exact running legal
      | yield => exact legal.1
      | sleep addr => exact running legal.1
      | wakeup addr => trivial
      | exit => exact running legal
      | hardclock => trivial
      | switchIn => exact legal
      | setVmspace set => exact running legal
      | setCwd set => exact running legal
    have notOurs : ∀ addr, op = .sleep addr → SyncOp.Foreign addr := by
      rintro addr rfl
      exact legal.2
    have kept : ∀ w : Threads, w.Inv → Lulled (fun addr => op = .sleep addr) s.sys w →
        (s.withSys w).Inv counts := fun w sys lulled =>
      inv.kept sys rfl rfl rfl rfl rfl lulled (fun l _ same => notOurs _ same)
        (fun k _ same => notOurs _ same)
    rw [SyncOp.run,wp_onSys]
    exact wp_mono (wp_and (op.run_spec inv.sys threadLegal) (op.run_asleep inv.sys threadLegal))
      (fun _ w h => kept w h.1.inv h.2) (fun _ w h => kept w h.1.inv h.2) (fun _ _ _ => trivial)

theorem SyncStep.inv (inv : s.Inv counts) (step : SyncStep s u) : u.Inv counts := by
  obtain ⟨op,legal,returns,rfl⟩ := step
  have spec := SyncOp.run_spec inv legal
  unfold Exec.wp at spec
  rcases ran : op.run s with ⟨value | code | site,t⟩ <;> rw [ran] at spec returns
  · exact spec
  · exact spec
  · exact absurd rfl (returns site)

theorem SyncRun.inv (run : SyncRun s u) (inv : s.Inv counts) : u.Inv counts := by
  induction run with
  | refl => exact inv
  | tail _ step ih => exact step.inv ih

/-- A lock is free or has one holder, who is the only thread inside; only the holder can
release it, and nobody sleeps on a free lock. -/
theorem lock_exclusive {mem : Kmem} (nonneg : ∀ k, 0 ≤ counts k)
    (run : SyncRun (Sync.start mem counts) s) (l : Nat) :
    ((s.locks l).available = 0 ∨ (s.locks l).available = 1) ∧
    ((s.locks l).available = 0 ↔ ∃ t, (s.locks l).holder = some t) ∧
    (∀ t v, s.inside l t = true → s.inside l v = true → t = v) ∧
    (∀ t, s.inside l t = true → (s.locks l).holder = some t) ∧
    (∀ t, s.sys.curthread = some t → (s.locks l).holder ≠ some t →
      lockRelease l s = (.ok (),s)) ∧
    ((s.locks l).available = 1 → ∀ t ∈ s.sys.sleepers.v, (s.sys.thread t).tSleepaddr ≠ some (.lock l)) := by
  have inv := SyncRun.inv run (start_inv mem nonneg)
  have changesNothing : ∀ t, s.sys.curthread = some t → (s.locks l).holder ≠ some t →
      lockRelease l s = (.ok (),s) := by
    intro t current other
    have spec : (lockRelease l).wp s (fun _ u => u = s) (fun _ _ => False) (fun _ _ => False) := by
      simp only [lockRelease,lockDoIHold,wp_bind,wp_onSys_current current,wp_read,
        wp_pure,current,other,decide_false,Bool.false_eq_true,if_false]
    obtain ⟨⟨⟩,u,ran,rfl⟩ := wp_returns spec
    exact ran
  rcases inv.lock l with ⟨free,awake,nobody⟩ | ⟨t,held,inside⟩
  · refine ⟨Or.inr (by rw [free]),?_,fun t v h => ?_,fun t h => ?_,changesNothing,fun _ t mem => ?_⟩
    · rw [free]
      exact ⟨fun h => absurd h (by decide),fun h => h.elim fun t some_ => absurd some_ (by simp)⟩
    · exact absurd (h.symm.trans (nobody t)) Bool.noConfusion
    · exact absurd (h.symm.trans (nobody t)) Bool.noConfusion
    · simpa [sleepsOn] using awake t mem
  · refine ⟨Or.inl (by rw [held]),?_,fun v w h h' => ?_,fun v h => ?_,changesNothing,fun one => ?_⟩
    · rw [held]
      exact ⟨fun _ => ⟨t,rfl⟩,fun _ => rfl⟩
    · rw [inside,decide_eq_true_eq] at h h'
      exact h.trans h'.symm
    · rw [inside,decide_eq_true_eq] at h
      rw [held,h]
    · rw [held] at one
      exact absurd one Nat.zero_ne_one

/-- The first thread takes a lock, or a unit of a semaphore. -/
def acquired : Sync := ((SyncOp.acquire 0).run (Sync.start plenty fun _ => 0)).2
def taken : Sync := ((SyncOp.P 0).run (Sync.start plenty fun _ => 1)).2

theorem acquired_run : SyncRun (Sync.start plenty fun _ => 0) acquired := by
  have ran : ((SyncOp.acquire 0).run (Sync.start plenty fun _ => 0)).1 = .ok () := rfl
  exact .single ⟨.acquire 0,⟨0,rfl,rfl⟩,(fun _ panics => nomatch ran.symm.trans panics),rfl⟩

theorem taken_run : SyncRun (Sync.start plenty fun _ => 1) taken := by
  have ran : ((SyncOp.P 0).run (Sync.start plenty fun _ => 1)).1 = .ok () := rfl
  exact .single ⟨.P 0,⟨0,rfl,rfl⟩,(fun _ panics => nomatch ran.symm.trans panics),rfl⟩

theorem lock_exclusive_acquired : acquired.inside 0 0 = true ∧ (acquired.locks 0).holder = some 0 :=
  ⟨rfl,(lock_exclusive (fun _ => Int.le_refl 0) acquired_run 0).2.2.2.1 0 rfl⟩

/-- The count of a semaphore is what the completed calls make it, and no thread sleeps on it
while the count is positive; so a thread that sleeps forever sleeps at count zero. -/
theorem semaphore_accounts {mem : Kmem} (nonneg : ∀ k, 0 ≤ counts k)
    (run : SyncRun (Sync.start mem counts) s) (k : Nat) (few : (s.vs k : Int) < 2^31 - counts k) :
    s.sems k = counts k + s.vs k - s.ps k ∧ 0 ≤ s.sems k ∧
    (0 < s.sems k → ∀ t ∈ s.sys.sleepers.v, (s.sys.thread t).tSleepaddr ≠ some (.sem k)) ∧
    ∀ future : Nat → Sync, future 0 = s → (∀ n, SyncStep (future n) (future (n + 1))) →
      (∀ n, ((future n).vs k : Int) < 2^31 - counts k) →
      ∀ t, (∀ n, t ∈ (future n).sys.sleepers.v ∧
        ((future n).sys.thread t).tSleepaddr = some (.sem k)) → ∀ n, (future n).sems k = 0 := by
  have inv := SyncRun.inv run (start_inv mem nonneg)
  have ok := inv.sem k few
  have awake : ∀ {w : Sync}, w.SemOk k (counts k) → 0 < w.sems k →
      ∀ t ∈ w.sys.sleepers.v, (w.sys.thread t).tSleepaddr ≠ some (.sem k) := by
    intro w ok positive t mem
    simpa [sleepsOn] using ok.awake (by omega) t mem
  refine ⟨ok.account,ok.nonneg,awake ok,fun future first steps bounded t asleep n => ?_⟩
  have reached : SyncRun s (future n) := by
    induction n with
    | zero => rw [first]
    | succ n ih => exact ih.tail (steps n)
  have okN := (SyncRun.inv reached inv).sem k (bounded n)
  by_contra notZero
  have := okN.nonneg
  exact awake okN (by omega) t (asleep n).1 (asleep n).2

theorem semaphore_accounts_taken : taken.ps 0 = 1 ∧ taken.sems 0 = 1 + taken.vs 0 - taken.ps 0 :=
  ⟨rfl,(semaphore_accounts (fun _ => Int.zero_le_ofNat 1) taken_run 0 (by decide)).1⟩

end Invariant

end Os161
