import Os161.ThreadRuns

/-! `thread_fork` with what it has to undo: the memory of the new thread, the reference to the
current directory and the interrupt level. -/
namespace Os161

open Function

/-- The thread system, the blocks that thread structures, names and stacks are in, the reference
counts of vnodes, the directory of each thread, and `curspl`. -/
structure Forking where
  threads : Threads
  blocks : List Nat
  vnRefcount : Nat → Nat
  tCwd : Tid → Option Nat
  curspl : Int

inductive ForkPanic where
  | thread (site : ThreadPanic)
  | decrefZero
  deriving DecidableEq, Repr

abbrev ForkM (α : Type) := Exec Forking Errno ForkPanic α

structure NewThread where
  tid : Tid
  self : Nat
  name : Nat

namespace Forking

def onThreads (call : Thr α) : ForkM α :=
  mapPanic .thread (zoom Forking.threads (fun s t => { s with threads := t }) call)

/-- `kmalloc` of a block that belongs to a thread. Blocks are numbered by the call. -/
def kmalloc : ForkM Nat := do
  let block := (← read).threads.mem.calls
  onThreads Thr.kmalloc
  modify fun s => { s with blocks := block :: s.blocks }
  pure block

def kfree (block : Nat) : ForkM Unit := modify fun s => { s with blocks := s.blocks.erase block }

def setRefcount (s : Forking) (v n : Nat) : Forking :=
  { s with vnRefcount := update s.vnRefcount v n }

def vopIncref (v : Nat) : ForkM Unit := modify fun s => s.setRefcount v (s.vnRefcount v + 1)

def vopDecref (v : Nat) : ForkM Unit := do
  let s ← read
  assert (s.vnRefcount v > 0) .decrefZero
  if s.vnRefcount v > 1 then put (s.setRefcount v (s.vnRefcount v - 1))
  else put (s.setRefcount v 0)

def splx (newspl : Int) : ForkM Int := do
  let s ← read
  put { s with curspl := newspl }
  pure s.curspl

def splhigh : ForkM Int := splx 15

def threadCreate : ForkM NewThread := do
  let self ← kmalloc
  match ← attempt kmalloc with
  | .error code => do
    kfree self
    fail code
  | .ok name => do
    let tid := (← read).threads.born
    onThreads (modify fun s => s.edit tid fun _ => ⟨.start,none,false,false,false⟩)
    modify fun s => { s with tCwd := update s.tCwd tid none }
    pure ⟨tid,self,name⟩

def inheritCwd (newguy cur : Tid) : ForkM Unit := do
  match (← read).tCwd cur with
  | none => pure ()
  | some v => do
    vopIncref v
    modify fun s => { s with tCwd := update s.tCwd newguy (some v) }

def abandon (newguy : NewThread) (stack : Nat) (spl : Int) : ForkM Unit := do
  let _ ← splx spl
  match (← read).tCwd newguy.tid with
  | some v => vopDecref v
  | none => pure ()
  kfree stack
  kfree newguy.name
  kfree newguy.self

/-- The part of `thread_fork` after the stack has been allocated. -/
def forkStacked (newguy : NewThread) (stack : Nat) : ForkM Tid := do
  let cur ← onThreads Thr.current
  inheritCwd newguy.tid cur
  onThreads (modify fun s =>
    s.edit newguy.tid fun t => { t with tStack := true, tCwd := (s.thread cur).tCwd })
  let spl ← splhigh
  match ← attempt (onThreads (forkReserve newguy.tid)) with
  | .error code => do
    abandon newguy stack spl
    fail code
  | .ok _ => do
    onThreads (modify fun s => { s with numthreads := s.numthreads + 1, born := s.born + 1 })
    let _ ← splx spl
    pure newguy.tid

def threadFork : ForkM Tid := do
  let newguy ← threadCreate
  match ← attempt kmalloc with
  | .error _ => do
    kfree newguy.name
    kfree newguy.self
    fail .enomem
  | .ok stack => forkStacked newguy stack

/-! What the steps do -/

section Steps
variable {s : Forking} {err : Errno → Forking → Prop} {halt : ForkPanic → Forking → Prop}

theorem wp_onThreads {call : Thr α} {ok : α → Forking → Prop} :
    (onThreads call).wp s ok err halt ↔
      call.wp s.threads (fun value t => ok value { s with threads := t })
        (fun code t => err code { s with threads := t })
        fun site t => halt (.thread site) { s with threads := t } := by
  rw [onThreads,wp_mapPanic,wp_zoom]

def counted (s : Forking) : Forking := { s with threads := { s.threads with mem := s.threads.mem.next } }

theorem wp_kmalloc {ok : Nat → Forking → Prop} :
    kmalloc.wp s ok err halt ↔
      if s.threads.mem.ready then
        ok s.threads.mem.calls { s.counted with blocks := s.threads.mem.calls :: s.blocks }
      else err .enomem s.counted := by
  simp only [kmalloc,wp_bind,wp_read,wp_onThreads,Os161.wp_kmalloc,wp_modify,
    wp_pure]
  rfl

theorem wp_splx {ok : Int → Forking → Prop} (spl : Int) :
    (splx spl).wp s ok err halt ↔ ok s.curspl { s with curspl := spl } := by
  simp only [splx,wp_bind,wp_read,wp_put,wp_pure]

structure Building (s u : Forking) (own : List Nat) : Prop where
  roomier : Roomier s.threads u.threads
  blocks : u.blocks = own ++ s.blocks
  refcount : u.vnRefcount = s.vnRefcount
  curspl : u.curspl = s.curspl

theorem Building.refl (valid : s.threads.runqueue.Valid) : Building s s [] :=
  ⟨.refl valid,rfl,rfl,rfl⟩

variable {u : Forking} {own : List Nat}

theorem Building.counted (building : Building s u own) :
    Building s u.counted own :=
  { building with roomier := building.roomier.tick _ }

theorem Building.alloc (building : Building s u own) (block : Nat) :
    Building s { u.counted with blocks := block :: u.blocks } (block :: own) :=
  { building.counted with blocks := congrArg (List.cons block) building.blocks }

theorem Building.free {block : Nat} (building : Building s u (block :: own)) :
    Building s { u with blocks := u.blocks.erase block } own := by
  refine { building with blocks := ?_ }
  rw [building.blocks,List.cons_append,List.erase_cons_head]

theorem Building.edit (building : Building s u own) (f : Thread → Thread)
    (tCwd : Tid → Option Nat) :
    Building s { u with threads := u.threads.edit s.threads.born f, tCwd } own :=
  { building with roomier := building.roomier.editBorn f }

theorem threadCreate_spec (valid : s.threads.runqueue.Valid) :
    threadCreate.wp s
      (fun newguy u => newguy.tid = s.threads.born ∧ Building s u [newguy.name,newguy.self] ∧
        u.tCwd = update s.tCwd newguy.tid none)
      (fun _ u => Building s u []) never := by
  have start := Building.refl valid
  rw [threadCreate,wp_bind,wp_kmalloc]
  split
  · rw [wp_bind,wp_attempt,wp_kmalloc]
    have one := start.alloc s.threads.mem.calls
    split
    · have two := one.alloc s.threads.mem.next.calls
      simp only [wp_bind,wp_read,wp_onThreads,wp_modify,wp_pure]
      exact ⟨rfl,two.edit _ _,rfl⟩
    · rw [wp_bind,kfree,wp_modify,wp_fail]
      exact one.counted.free
  · exact start.counted

def inherited (s : Forking) (newguy : Tid) : Option Nat → Forking
  | none => s
  | some v =>
    { s.setRefcount v (s.vnRefcount v + 1) with tCwd := update s.tCwd newguy (some v) }

theorem inherited_frame (s : Forking) (newguy : Tid) (dir : Option Nat) :
    (s.inherited newguy dir).threads = s.threads ∧ (s.inherited newguy dir).blocks = s.blocks ∧
      (s.inherited newguy dir).curspl = s.curspl := by
  cases dir with
  | none => exact ⟨rfl,rfl,rfl⟩
  | some v => exact ⟨rfl,rfl,rfl⟩

theorem wp_inheritCwd {ok : Unit → Forking → Prop} {newguy cur : Tid} :
    (inheritCwd newguy cur).wp s ok err halt ↔ ok () (s.inherited newguy (s.tCwd cur)) := by
  rw [inheritCwd,wp_bind,wp_read]
  cases s.tCwd cur with
  | none => exact Iff.rfl
  | some v => exact Iff.rfl

theorem vopDecref_spec {v n : Nat} (count : s.vnRefcount v = n + 1) (held : 0 < n) :
    (vopDecref v).wp s (fun _ t => t = s.setRefcount v n) never never := by
  have more : s.vnRefcount v > 1 := by omega
  simp only [vopDecref,wp_bind,wp_read,wp_assert,decide_eq_true_eq]
  rw [if_pos (Nat.lt_of_succ_lt more),if_pos more,wp_put,count,Nat.add_sub_cancel]

variable {newguy : NewThread} {stack : Nat}

theorem abandon_spec {w : Forking} {dir : Option Nat}
    (building : Building s u [stack,newguy.name,newguy.self]) (fresh : u.tCwd newguy.tid = none)
    (counted : ∀ v, dir = some v → 0 < u.vnRefcount v)
    (roomier : Roomier s.threads w.threads) (blocks : w.blocks = u.blocks)
    (refcount : w.vnRefcount = (u.inherited newguy.tid dir).vnRefcount)
    (tCwd : w.tCwd = (u.inherited newguy.tid dir).tCwd) :
    (abandon newguy stack s.curspl).wp w (fun _ t => Building s t []) never never := by
  -- The frees do not depend on whether a reference was dropped.
  have frees : ∀ t : Forking, Building s t [stack,newguy.name,newguy.self] →
      (do kfree stack; kfree newguy.name; kfree newguy.self : ForkM Unit).wp t
        (fun _ t => Building s t []) never never := by
    intro t own
    simp only [kfree,wp_bind,wp_modify]
    exact own.free.free.free
  have own : ∀ t : Forking, t.threads = w.threads → t.blocks = w.blocks → t.curspl = s.curspl →
      t.vnRefcount = u.vnRefcount → Building s t [stack,newguy.name,newguy.self] := by
    intro t threads same curspl same'
    exact ⟨threads ▸ roomier,same.trans (blocks.trans building.blocks),
      same'.trans building.refcount,curspl⟩
  rw [abandon,wp_bind,wp_splx,wp_bind,wp_read]
  cases dir with
  | none =>
    have none_ : w.tCwd newguy.tid = none := (congrFun tCwd _).trans fresh
    simp only [none_]
    exact frees _ (own _ rfl rfl rfl refcount)
  | some v =>
    have some_ : w.tCwd newguy.tid = some v := (congrFun tCwd _).trans (update_self _ _ _)
    have count : w.vnRefcount v = u.vnRefcount v + 1 :=
      (congrFun refcount _).trans (update_self _ _ _)
    simp only [some_]
    rw [wp_bind]
    refine wp_imp (vopDecref_spec (s := { w with curspl := s.curspl }) count (counted v rfl)) ?_
    rintro _ t rfl
    refine frees _ (own _ rfl rfl rfl ?_)
    rw [setRefcount,refcount,inherited,setRefcount]
    simp only [update_idem,update_eq_self]

theorem forkStacked_spec {cur : Tid}
    (running : s.threads.curthread = some cur)
    (sleepersFit : s.threads.sleepers.num ≤ s.threads.sleepers.max)
    (zombiesFit : s.threads.zombies.num ≤ s.threads.zombies.max)
    (held : ∀ v, s.tCwd cur = some v → 0 < s.vnRefcount v) (older : cur ≠ newguy.tid)
    (isNew : newguy.tid = s.threads.born) (building : Building s u [stack,newguy.name,newguy.self])
    (cleared : u.tCwd = update s.tCwd newguy.tid none) :
    (forkStacked newguy stack).wp u (fun _ _ => True) (fun _ t => Building s t []) never := by
  obtain ⟨tid,self,name⟩ := newguy
  obtain rfl : tid = s.threads.born := isNew
  have dir : u.tCwd cur = s.tCwd cur := by rw [cleared,update_of_ne older]
  rw [forkStacked,wp_bind,wp_onThreads,wp_current (building.roomier.cur.trans running),
    wp_bind,wp_inheritCwd,dir,wp_bind,wp_onThreads,wp_modify,wp_bind,splhigh,
    wp_splx,wp_bind,wp_attempt,wp_onThreads]
  obtain ⟨threads,blocks,curspl⟩ := u.inherited_frame s.threads.born (s.tCwd cur)
  have roomier : ∀ f, Roomier s.threads
      ((u.inherited s.threads.born (s.tCwd cur)).threads.edit s.threads.born f) := by
    intro f
    rw [threads]
    exact building.roomier.editBorn f
  refine wp_safe (forkReserve_spec ?_ sleepersFit zombiesFit) ?_ ?_
  · exact roomier fun t =>
      { t with tStack := true, tCwd := ((u.inherited s.threads.born (s.tCwd cur)).threads.thread cur).tCwd }
  · intro _ t _
    simp only [wp_bind,wp_onThreads,wp_modify,wp_splx,wp_pure]
  · intro code t grown
    rw [wp_bind,curspl.trans building.curspl]
    refine wp_total (abandon_spec building ?_ ?_ grown blocks rfl rfl) ?_
    · rw [cleared,update_self]
    · intro v here
      rw [building.refcount]
      exact held v here
    · exact fun _ _ undone => undone

theorem abandon_threads {spl : Int}
    (counted : ∀ v, s.tCwd newguy.tid = some v → 0 < s.vnRefcount v) :
    (abandon newguy stack spl).wp s (fun _ t => t.threads = s.threads) never never := by
  rw [abandon,wp_bind,wp_splx,wp_bind,wp_read]
  cases dir : s.tCwd newguy.tid with
  | none => exact rfl
  | some v =>
    simp only [vopDecref,kfree,wp_bind,wp_read,wp_assert,decide_eq_true_eq,
      if_pos (counted v dir),wp_ite,wp_put,wp_modify]
    exact ⟨fun _ => rfl,fun _ => rfl⟩

theorem inherited_counts {newguy : Tid} (fresh : s.tCwd newguy = none) (dir : Option Nat) (v : Nat)
    (here : (s.inherited newguy dir).tCwd newguy = some v) : 0 < (s.inherited newguy dir).vnRefcount v := by
  cases dir with
  | none =>
    rw [inherited,fresh] at here
    cases here
  | some w =>
    simp only [inherited,setRefcount,update_self,Option.some.injEq] at here ⊢
    obtain rfl := here
    rw [update_self]
    exact Nat.succ_pos _

/-- What `Os161.threadFork` does once the stack is there. -/
def forkOn (newguy : Tid) : Thr Tid := do
  let cur ← Thr.current
  modify fun s => s.edit newguy fun t => { t with tStack := true, tCwd := (s.thread cur).tCwd }
  forkReserve newguy
  modify fun s => { s with numthreads := s.numthreads + 1, born := s.born + 1 }
  pure newguy

variable {ok : Tid → Threads → Prop}

theorem forkStacked_refines
    {err : Errno → Threads → Prop} (fresh : s.tCwd newguy.tid = none)
    (fork : (forkOn newguy.tid).wp s.threads ok err never) :
    (forkStacked newguy stack).wp s (fun r t => ok r t.threads) (fun code t => err code t.threads)
      never := by
  rw [forkOn,wp_bind] at fork
  rw [forkStacked,wp_bind,wp_onThreads]
  refine wp_safe fork ?_ (fun _ _ h => h)
  intro cur u fork
  have counts := inherited_counts (s := { s with threads := u }) fresh (s.tCwd cur)
  obtain ⟨threads,-,-⟩ := Forking.inherited_frame { s with threads := u } newguy.tid (s.tCwd cur)
  rw [wp_bind,wp_modify,wp_bind] at fork
  rw [wp_bind,wp_inheritCwd,wp_bind,wp_onThreads,wp_modify,wp_bind,splhigh,
    wp_splx,wp_bind,wp_attempt,wp_onThreads,threads]
  refine wp_safe fork ?_ ?_
  · intro _ t done
    simp only [wp_bind,wp_onThreads,wp_modify,wp_splx,wp_pure] at done ⊢
    exact done
  · intro code t failed
    rw [wp_bind]
    refine wp_total (abandon_threads counts) ?_
    rintro _ x same
    rw [wp_fail,same]
    exact failed

theorem threadCreate_refines {err : Errno → Threads → Prop}
    (create : Os161.threadCreate.wp s.threads ok err never) :
    threadCreate.wp s (fun newguy t => ok newguy.tid t.threads ∧ t.tCwd newguy.tid = none)
      (fun code t => err code t.threads) never := by
  rw [Os161.threadCreate,wp_bind,Os161.wp_kmalloc] at create
  rw [threadCreate,wp_bind,wp_kmalloc]
  split at create
  · rw [if_pos ‹_›,wp_bind,wp_attempt,wp_kmalloc]
    rw [wp_bind,Os161.wp_kmalloc] at create
    split at create
    · simp only [wp_bind,wp_read,wp_onThreads,wp_modify,wp_pure] at create ⊢
      rw [if_pos ‹_›]
      exact ⟨create,update_self _ _ _⟩
    · rw [if_neg ‹_›]
      exact create
  · rw [if_neg ‹_›]
    exact create

/-- The thread system sees the fork of `Os161.threadFork`. -/
theorem threadFork_refines {err : Errno → Threads → Prop}
    (fork : Os161.threadFork.wp s.threads ok err never) :
    threadFork.wp s (fun r t => ok r t.threads) (fun code t => err code t.threads) never := by
  rw [Os161.threadFork,wp_bind] at fork
  rw [threadFork,wp_bind]
  refine wp_imp (threadCreate_refines fork) ?_
  rintro newguy t ⟨fork,fresh⟩
  rw [wp_bind,Os161.wp_kmalloc] at fork
  rw [wp_bind,wp_attempt,wp_kmalloc]
  split at fork
  · rw [if_pos ‹_›]
    refine forkStacked_refines fresh ?_
    simp only [forkOn,wp_bind,wp_forkReserve,wp_modify,wp_read] at fork ⊢
    exact fork
  · rw [if_neg ‹_›]
    exact fork

end Steps

/-- In every state since bootup, `thread_fork` with all it has to undo ends as the fork of the thread
system does, in the same state of it. -/
theorem thread_fork_refines {s : Forking} {mem : Kmem} (run : ThreadRun (booted mem) s.threads)
    (running : s.threads.curthread ≠ none) :
    threadFork.wp s (fun r t => Os161.threadFork s.threads = (.ok r,t.threads))
      (fun code t => Os161.threadFork s.threads = (.err code,t.threads)) fun _ _ => False := by
  have inv := run.inv (Threads.booted_inv mem)
  obtain ⟨cur,current⟩ := Option.ne_none_iff_exists'.mp running
  have fork := threadFork_spec current inv.valid inv.sleepersFit inv.zombiesFit
  exact threadFork_refines (wp_ran fork)

/-- A fork that fails leaves no trace, wherever the memory ran out. -/
theorem failed_thread_fork_has_no_effect {s : Forking} {cur : Tid}
    (running : s.threads.curthread = some cur) (older : cur ≠ s.threads.born)
    (valid : s.threads.runqueue.Valid)
    (sleepersFit : s.threads.sleepers.num ≤ s.threads.sleepers.max)
    (zombiesFit : s.threads.zombies.num ≤ s.threads.zombies.max)
    (held : ∀ v, s.tCwd cur = some v → 0 < s.vnRefcount v) :
    threadFork.wp s (fun _ _ => True)
      (fun _ t => t.threads.curthread = s.threads.curthread ∧
        t.threads.runqueue.toList = s.threads.runqueue.toList ∧
        t.threads.sleepers.v = s.threads.sleepers.v ∧ t.threads.zombies.v = s.threads.zombies.v ∧
        t.threads.numthreads = s.threads.numthreads ∧ t.curspl = s.curspl ∧
        t.vnRefcount = s.vnRefcount ∧ t.blocks = s.blocks)
      fun _ _ => False := by
  have undone : threadFork.wp s (fun _ _ => True) (fun _ t => Building s t []) never := by
    rw [threadFork,wp_bind]
    refine wp_safe (threadCreate_spec valid) ?_ (fun _ _ undone => undone)
    rintro newguy u ⟨isNew,building,cleared⟩
    rw [wp_bind,wp_attempt,wp_kmalloc]
    split
    · exact forkStacked_spec running sleepersFit zombiesFit held (isNew ▸ older) isNew
        (building.alloc _) cleared
    · simp only [kfree,wp_bind,wp_modify,wp_fail]
      exact building.counted.free.free
  refine wp_ends undone (fun _ _ _ => trivial) ?_
  rintro _ t ⟨roomier,blocks,refcount,curspl⟩
  exact ⟨roomier.cur,roomier.queue,roomier.sleepers,roomier.zombies,roomier.count,curspl,refcount,
    blocks⟩

/-- Thread 0 in the directory 7. The fifth `kmalloc`, for the zombies, fails. -/
def tight : Forking where
  threads := booted ⟨fun i => decide (i < 4),0⟩
  blocks := []
  vnRefcount := fun _ => 1
  tCwd := fun t => if t = 0 then some 7 else none
  curspl := 0

theorem thread_fork_refines_tight :
    threadFork.wp tight never (fun code _ => code = .enomem) never := by
  have fails : (Os161.threadFork tight.threads).1 = .err .enomem := rfl
  refine wp_ends (thread_fork_refines (s := tight) .refl (Option.some_ne_none _)) ?_ ?_
  · rintro r t same
    rw [same] at fails
    cases fails
  · rintro code t same
    rw [same] at fails
    cases fails
    rfl

theorem failed_thread_fork_tight :
    threadFork.wp tight (fun _ _ => False)
      (fun code t => code = .enomem ∧ t.threads.runqueue.toList = [] ∧ t.threads.numthreads = 1 ∧
        t.curspl = 0 ∧ t.vnRefcount 7 = 1 ∧ t.blocks = [])
      fun _ _ => False := by
  have fails : threadFork.wp tight (fun _ _ => False) (fun code _ => code = .enomem) fun _ _ => False := rfl
  refine wp_mono (wp_and fails (failed_thread_fork_has_no_effect (s := tight) rfl
    (by decide) ⟨by decide,by decide,by decide⟩ (by decide) (by decide) fun _ _ => Nat.one_pos)) ?_ ?_ ?_
  · exact fun _ _ h => h.1
  · rintro code t ⟨full,-,queue,-,-,count,curspl,refcount,blocks⟩
    exact ⟨full,queue,count,curspl,congrFun refcount 7,blocks⟩
  · exact fun _ _ h => h.1

end Forking

end Os161
