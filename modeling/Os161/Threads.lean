import Mathlib.Logic.Relation
import Os161.Containers

/-! `thread.c`, `scheduler.c` and the clock interrupt. The code between two points where
interrupts are enabled is one call. `mi_switch` is cut where the CPU changes hands: the
first part puts the current thread on a list and leaves no thread current, the second part
is the scheduler picking a thread and that thread coming back from its own `mi_switch`, or
starting. Between the two the idle loop takes interrupts. -/
namespace Os161

open Function

/-- A thread structure, numbered in the order in which they reach the scheduler. -/
abbrev Tid := Nat

/-- What a thread sleeps on. Different objects have different addresses. -/
inductive SleepAddr where
  | lock (l : Nat) | sem (k : Nat) | lbolt | other (n : Nat)
  deriving DecidableEq, Repr

/-- Where the saved context of a thread continues: in `mi_threadstart`, or behind the call
of `mi_switch` in `thread_yield` or `thread_sleep`. -/
inductive Resume where
  | start | yield | sleep
  deriving DecidableEq, Repr

inductive NextState where
  | ready | sleep | zomb
  deriving DecidableEq, Repr

/-- `struct thread`. Of the pointers only whether they are set matters here. -/
structure Thread where
  resume : Resume
  tSleepaddr : Option SleepAddr
  tStack : Bool
  tVmspace : Bool
  tCwd : Bool
  deriving DecidableEq, Repr

/-- The globals of the thread system. `born` counts the threads handed to the scheduler,
and `destroyed` those freed since. -/
structure Threads where
  curthread : Option Tid
  sleepers : KArray Tid
  zombies : KArray Tid
  runqueue : Queue Tid
  numthreads : Nat
  thread : Tid → Thread
  born : Nat
  destroyed : List Tid
  lboltCounter : Nat
  mem : Kmem

abbrev Thr (α : Type) := Exec Threads Errno ThreadPanic α

namespace Threads

def edit (s : Threads) (t : Tid) (f : Thread → Thread) : Threads :=
  { s with thread := update s.thread t (f (s.thread t)) }

theorem edit_self (s : Threads) (t : Tid) (f : Thread → Thread) :
    (s.edit t f).thread t = f (s.thread t) := update_self _ _ _

theorem edit_other (s : Threads) {t u : Tid} (f : Thread → Thread) (other : u ≠ t) :
    (s.edit t f).thread u = s.thread u := update_of_ne other _ _

def withSleepers (s : Threads) (h : Held (KArray Tid)) : Threads :=
  { s with sleepers := h.it, mem := h.mem }
def withZombies (s : Threads) (h : Held (KArray Tid)) : Threads :=
  { s with zombies := h.it, mem := h.mem }
def withRunqueue (s : Threads) (h : Held (Queue Tid)) : Threads :=
  { s with runqueue := h.it, mem := h.mem }

end Threads

namespace Thr

def onSleepers (call : Holding (KArray Tid) α) : Thr α :=
  zoom (fun s => ⟨s.sleepers,s.mem⟩) Threads.withSleepers call
def onZombies (call : Holding (KArray Tid) α) : Thr α :=
  zoom (fun s => ⟨s.zombies,s.mem⟩) Threads.withZombies call
def onRunqueue (call : Holding (Queue Tid) α) : Thr α :=
  zoom (fun s => ⟨s.runqueue,s.mem⟩) Threads.withRunqueue call

/-- `kmalloc` for an object that is not modelled further. -/
def kmalloc : Thr Unit :=
  zoom (fun s => ⟨(),s.mem⟩) (fun s (h : Held Unit) => { s with mem := h.mem }) Held.kmalloc

/-- `curthread`, where the source follows the pointer. -/
def current : Thr Tid := do
  match (← read).curthread with
  | some t => pure t
  | none => panic .nullCurthread

def mustSucceed (call : Thr Unit) (site : ThreadPanic) : Thr Unit := do
  match ← attempt call with
  | .ok _ => pure ()
  | .error _ => panic site

end Thr

open Thr

/-! `scheduler.c` -/

def schedulerPreallocate (nthreads : Nat) : Thr Unit := onRunqueue (Queue.qPreallocate nthreads)

def makeRunnable (t : Tid) : Thr Unit := onRunqueue (Queue.qAddtail t)

/-! `thread.c` -/

def threadCreate : Thr Tid := do
  Thr.kmalloc
  Thr.kmalloc
  let newguy := (← read).born
  modify fun s => s.edit newguy fun _ => ⟨.start,none,false,false,false⟩
  pure newguy

def threadDestroy (t : Tid) : Thr Unit := do
  let s ← read
  assert (s.curthread ≠ some t) .destroyCurrent
  assert (!(s.thread t).tVmspace) .destroyVmspace
  assert (!(s.thread t).tCwd) .destroyCwd
  put { s with destroyed := t :: s.destroyed }

def exorciseTurn (i : Nat) : Thr Unit := do
  let z ← onZombies (KArray.arrayGetguy i)
  assert ((← read).curthread ≠ some z) .zombieCurrent
  threadDestroy z

def exorcise : Thr Unit := do
  let s ← read
  loop (fun i _ => exorciseTurn i) s.zombies.num 0 ()
  mustSucceed (onZombies (KArray.arraySetsize 0)) .exorciseResult

def threadFork : Thr Tid := do
  let newguy ← threadCreate
  Thr.kmalloc
  let cur ← current
  modify fun s => s.edit newguy fun t => { t with tStack := true, tCwd := (s.thread cur).tCwd }
  let s ← read
  onSleepers (KArray.arrayPreallocate (s.numthreads + 1))
  onZombies (KArray.arrayPreallocate (s.numthreads + 1))
  schedulerPreallocate (s.numthreads + 1)
  makeRunnable newguy
  modify fun s => { s with numthreads := s.numthreads + 1, born := s.born + 1 }
  pure newguy

def stash (nextstate : NextState) (cur : Tid) : Thr Unit :=
  match nextstate with
  | .ready => makeRunnable cur
  | .sleep => onSleepers (KArray.arrayAdd cur)
  | .zomb => onZombies (KArray.arrayAdd cur)

/-- `mi_switch` up to the call of the scheduler. With no current thread it returns at
once: the idle loop was interrupted. -/
def switchOut (nextstate : NextState) (resume : Resume) : Thr Unit := do
  match (← read).curthread with
  | none => pure ()
  | some cur => do
    modify fun s => { s.edit cur fun t => { t with resume := resume } with curthread := none }
    mustSucceed (stash nextstate cur) .switchResult

/-- What the thread does that the scheduler picked: a new thread starts, the others come
back from `mi_switch`. -/
def comeBack (next : Tid) : Resume → Thr Unit
  | .start => pure ()
  | .yield => exorcise
  | .sleep => do
    exorcise
    modify fun s => s.edit next fun t => { t with tSleepaddr := none }

/-- `mi_switch` from the return of the scheduler on, in the thread that gets the CPU. -/
def switchIn : Thr Unit := do
  let next ← onRunqueue Queue.qRemhead
  modify fun s => { s with curthread := some next }
  comeBack next ((← read).thread next).resume

def threadExit : Thr Unit := do
  let cur ← current
  modify fun s => s.edit cur fun t => { t with tVmspace := false, tCwd := false }
  let s ← read
  assert (0 < s.numthreads) .numthreadsZero
  put { s with numthreads := s.numthreads - 1 }
  switchOut .zomb .yield

def threadYield : Thr Unit := switchOut .ready .yield

def threadSleep (addr : SleepAddr) : Thr Unit := do
  let cur ← current
  modify fun s => s.edit cur fun t => { t with tSleepaddr := some addr }
  switchOut .sleep .sleep

/-- The loop of `thread_wakeup` at index `i`; each turn removes an entry or passes it, so
the entries left at the start are turns enough. -/
def wakeupLoop (addr : SleepAddr) : Nat → Nat → Thr Unit
  | 0, _ => pure ()
  | fuel + 1, i => do
    let t ← onSleepers (KArray.arrayGetguy i)
    if ((← read).thread t).tSleepaddr = some addr then
      onSleepers (KArray.arrayRemove i)
      mustSucceed (makeRunnable t) .wakeupResult
      wakeupLoop addr fuel i
    else wakeupLoop addr fuel (i + 1)

def threadWakeup (addr : SleepAddr) : Thr Unit := do
  wakeupLoop addr (← read).sleepers.num 0

/-- Bootup: `q_create(32)`, the two arrays, and the structure of the running thread. -/
def schedulerBootstrap : Thr Unit := do
  mustSucceed (do Thr.kmalloc; Thr.kmalloc) .schedulerBootstrap
  modify fun s => { s with runqueue := ⟨32,0,0,fun _ => 0⟩ }

def threadBootstrap : Thr Unit := do
  mustSucceed (do Thr.kmalloc; Thr.kmalloc) .threadBootstrap
  modify fun s => { s with sleepers := .arrayCreate, zombies := .arrayCreate }
  mustSucceed (do let _ ← threadCreate) .threadBootstrap
  modify fun s => { s with curthread := some s.born, born := s.born + 1, numthreads := 1 }

/-! `hardclock.c` -/

def hz : Nat := 100

def hardclock : Thr Unit := do
  modify fun s => { s with lboltCounter := s.lboltCounter + 1 }
  if (← read).lboltCounter ≥ hz then do
    modify fun s => { s with lboltCounter := 0 }
    threadWakeup .lbolt
  threadYield

/-! Runs -/

/-- What can happen at a point where interrupts are enabled, and the scheduler's choice. -/
inductive ThreadOp where
  | fork | yield | sleep (addr : SleepAddr) | wakeup (addr : SleepAddr) | exit
  | hardclock | switchIn
  | setVmspace (set : Bool) | setCwd (set : Bool)
  deriving DecidableEq, Repr

namespace ThreadOp

def run : ThreadOp → Thr Unit
  | .fork => do let _ ← threadFork
  | .yield => threadYield
  | .sleep addr => threadSleep addr
  | .wakeup addr => threadWakeup addr
  | .exit => threadExit
  | .hardclock => Os161.hardclock
  | .switchIn => Os161.switchIn
  | .setVmspace set => do
    let cur ← current
    modify fun s => s.edit cur fun t => { t with tVmspace := set }
  | .setCwd set => do
    let cur ← current
    modify fun s => s.edit cur fun t => { t with tCwd := set }

/-- A thread does something only while it is current, and the scheduler picks a thread only
while none is. Interrupts come at both times. -/
def Legal (s : Threads) : ThreadOp → Prop
  | .wakeup _ | .hardclock => True
  | .switchIn => s.curthread = none ∧ s.runqueue.qEmpty = false
  | _ => s.curthread ≠ none

end ThreadOp

/-- One operation that returns, with or without an error. -/
def ThreadStep (s t : Threads) : Prop :=
  ∃ op : ThreadOp, op.Legal s ∧ (∀ site, (op.run s).1 ≠ .panic site) ∧ t = (op.run s).2

abbrev ThreadRun : Threads → Threads → Prop := Relation.ReflTransGen ThreadStep

def booted (mem : Kmem) : Threads where
  curthread := some 0
  sleepers := .arrayCreate
  zombies := .arrayCreate
  runqueue := ⟨32,0,0,fun _ => 0⟩
  numthreads := 1
  thread := fun _ => ⟨.start,none,false,false,false⟩
  born := 1
  destroyed := []
  lboltCounter := 0
  mem := mem

end Os161
