import Os161.Interleaving
import Os161.Census

/-! The vnodes of an emulator file system and their reference counts, `emufs_loadvnode` and
`emufs_reclaim` of `dev/lamebus/emu.c` under `vnode_incref` and `vnode_decref` of
`fs/vfs/vnode.c`, for any number of threads. A step reaches from one operation on
`vn_countlock` or `e_lock` to the next; `emu_close` succeeds. Vnodes are numbered in the
order in which they are made; number 0 is `ef_root`. -/
namespace Os161

open Function

/-- Where a thread is. A name that ends in `Locked` or `Test` stands for the code after a
lock has been taken: `vn_countlock` of the vnode in `vnode_incref` and `vnode_decref`,
`e_lock` in the other two functions, and both in `reclaimTest` and `foundLocked`. -/
inductive EmuPc where
  | out
  -- `vnode_incref`
  | incref (v : Nat) | increfLocked (v : Nat)
  -- `vnode_decref`
  | decref (v : Nat) | decrefLocked (v : Nat)
  -- `emufs_reclaim`: behind the test it is about to return `EBUSY`, or closes the handle
  -- with `e_lock` held and then calls `VOP_KILL`
  | reclaim (v : Nat) | reclaimLocked (v : Nat) | reclaimTest (v : Nat) | busy (v : Nat)
  | close (v : Nat) | kill (v : Nat)
  -- `emufs_loadvnode`: a vnode that was found gets its `VOP_INCREF` with `e_lock` held
  | load (handle : Nat) | loadLocked (handle : Nat)
  | found (v : Nat) | foundLocked (v : Nat) | foundOut (v : Nat)
  deriving DecidableEq, Repr

namespace EmuPc

def elocked : EmuPc → Bool
  | reclaimLocked _ | reclaimTest _ | busy _ | close _ | loadLocked _ | found _ | foundLocked _
  | foundOut _ => true
  | _ => false

def countlocked : EmuPc → Option Nat
  | increfLocked v | decrefLocked v | reclaimTest v | foundLocked v => some v
  | _ => none

/-- A reference to `v` that the thread has yet to drop, or has got and not yet returned. -/
def owes (v : Nat) : EmuPc → Nat
  | decref w | decrefLocked w | reclaim w | reclaimLocked w | reclaimTest w | close w
  | foundOut w => if w = v then 1 else 0
  | _ => 0

end EmuPc

structure EmuThread where
  pc : EmuPc
  held : Nat → Nat

namespace EmuThread

def refs (v : Nat) (thread : EmuThread) : Nat := thread.held v + thread.pc.owes v

def gain (thread : EmuThread) (v : Nat) : EmuThread :=
  ⟨.out,update thread.held v (thread.held v + 1)⟩

def give (thread : EmuThread) (v : Nat) : EmuThread :=
  ⟨.decref v,update thread.held v (thread.held v - 1)⟩

end EmuThread

/-- The file system. `closed` lists the vnodes whose handle has been closed and `ebusy` those
whose `emufs_reclaim` returned `EBUSY`. -/
structure Emufs (ι : Type) where
  efVnodes : List Nat
  evHandle : Nat → Nat
  vnRefcount : Nat → Nat
  eLock : Option ι
  vnCountlock : Nat → Option ι
  born : Nat
  threads : ι → EmuThread
  closed : List Nat
  ebusy : List Nat

namespace Emufs
variable {ι : Type}

/-- After `emufs_addtovfs`: the root is loaded, with handle `EMU_ROOTHANDLE`. -/
def mounted : Emufs ι where
  efVnodes := [0]
  evHandle := fun _ => 0
  vnRefcount := fun v => if v = 0 then 1 else 0
  eLock := none
  vnCountlock := fun _ => none
  born := 1
  threads := fun _ => ⟨.out,fun _ => 0⟩
  closed := []
  ebusy := []

def rootRef (v : Nat) : Nat := if v = 0 then 1 else 0

variable [DecidableEq ι]

def set (s : Emufs ι) (t : ι) (thread : EmuThread) : Emufs ι :=
  { s with threads := update s.threads t thread }

def goto (s : Emufs ι) (t : ι) (pc : EmuPc) : Emufs ι := s.set t { s.threads t with pc := pc }

def lockCount (s : Emufs ι) (v : Nat) (holder : Option ι) : Emufs ι :=
  { s with vnCountlock := update s.vnCountlock v holder }

def setRefcount (s : Emufs ι) (v n : Nat) : Emufs ι :=
  { s with vnRefcount := update s.vnRefcount v n }

def lookup (s : Emufs ι) (handle : Nat) : Option Nat :=
  s.efVnodes.find? fun v => s.evHandle v = handle

/-- `kmalloc`, `VOP_INIT` and `array_add`. -/
def create (s : Emufs ι) (handle : Nat) : Emufs ι :=
  { s with
    efVnodes := s.efVnodes ++ [s.born]
    evHandle := update s.evHandle s.born handle
    vnRefcount := update s.vnRefcount s.born 1
    born := s.born + 1 }

inductive Step : Emufs ι → Emufs ι → Prop where
  -- `vnode_incref`, on a vnode that the thread holds or, in `emufs_getroot`, on the root
  | incref {s} (t : ι) (v : Nat) : (s.threads t).pc = .out → 0 < (s.threads t).held v ∨ v = 0 →
      Step s (s.goto t (.incref v))
  | increfLock {s} (t : ι) (v : Nat) : (s.threads t).pc = .incref v → s.vnCountlock v = none →
      Step s ((s.goto t (.increfLocked v)).lockCount v (some t))
  | increfDone {s} (t : ι) (v : Nat) : (s.threads t).pc = .increfLocked v →
      Step s (((s.set t ((s.threads t).gain v)).setRefcount v (s.vnRefcount v + 1)).lockCount v none)
  -- `vnode_decref`
  | decref {s} (t : ι) (v : Nat) : (s.threads t).pc = .out → 0 < (s.threads t).held v →
      Step s (s.set t ((s.threads t).give v))
  | decrefLock {s} (t : ι) (v : Nat) : (s.threads t).pc = .decref v → s.vnCountlock v = none →
      Step s ((s.goto t (.decrefLocked v)).lockCount v (some t))
  | decrefDrop {s} (t : ι) (v : Nat) : (s.threads t).pc = .decrefLocked v → 1 < s.vnRefcount v →
      Step s (((s.goto t .out).setRefcount v (s.vnRefcount v - 1)).lockCount v none)
  | decrefLast {s} (t : ι) (v : Nat) : (s.threads t).pc = .decrefLocked v →
      ¬ 1 < s.vnRefcount v → Step s ((s.goto t (.reclaim v)).lockCount v none)
  -- `emufs_reclaim`
  | reclaimLock {s} (t : ι) (v : Nat) : (s.threads t).pc = .reclaim v → s.eLock = none →
      Step s { s.goto t (.reclaimLocked v) with eLock := some t }
  | reclaimCount {s} (t : ι) (v : Nat) : (s.threads t).pc = .reclaimLocked v →
      s.vnCountlock v = none → Step s ((s.goto t (.reclaimTest v)).lockCount v (some t))
  | reclaimBusy {s} (t : ι) (v : Nat) : (s.threads t).pc = .reclaimTest v → s.vnRefcount v ≠ 1 →
      Step s { (s.goto t (.busy v)).lockCount v none with ebusy := s.ebusy ++ [v] }
  | reclaimFails {s} (t : ι) (v : Nat) : (s.threads t).pc = .busy v →
      Step s { s.goto t .out with eLock := none }
  | reclaimLast {s} (t : ι) (v : Nat) : (s.threads t).pc = .reclaimTest v → s.vnRefcount v = 1 →
      Step s ((s.goto t (.close v)).lockCount v none)
  | close {s} (t : ι) (v : Nat) : (s.threads t).pc = .close v →
      Step s { s.goto t (.kill v) with
        efVnodes := s.efVnodes.erase v, closed := v :: s.closed, eLock := none }
  | kill {s} (t : ι) (v : Nat) : (s.threads t).pc = .kill v → Step s (s.goto t .out)
  -- `emufs_loadvnode`
  | load {s} (t : ι) (handle : Nat) : (s.threads t).pc = .out → Step s (s.goto t (.load handle))
  | loadLock {s} (t : ι) (handle : Nat) : (s.threads t).pc = .load handle → s.eLock = none →
      Step s { s.goto t (.loadLocked handle) with eLock := some t }
  | loadFound {s} (t : ι) (handle v : Nat) : (s.threads t).pc = .loadLocked handle →
      s.lookup handle = some v → Step s (s.goto t (.found v))
  | foundLock {s} (t : ι) (v : Nat) : (s.threads t).pc = .found v → s.vnCountlock v = none →
      Step s ((s.goto t (.foundLocked v)).lockCount v (some t))
  | foundCount {s} (t : ι) (v : Nat) : (s.threads t).pc = .foundLocked v →
      Step s (((s.goto t (.foundOut v)).setRefcount v (s.vnRefcount v + 1)).lockCount v none)
  | foundDone {s} (t : ι) (v : Nat) : (s.threads t).pc = .foundOut v →
      Step s { s.set t ((s.threads t).gain v) with eLock := none }
  | loadCreate {s} (t : ι) (handle : Nat) : (s.threads t).pc = .loadLocked handle →
      s.lookup handle = none →
      Step s { (s.create handle).set t ((s.threads t).gain s.born) with eLock := none }
  /-- Out of memory. -/
  | loadFails {s} (t : ι) (handle : Nat) : (s.threads t).pc = .loadLocked handle →
      s.lookup handle = none → Step s { s.goto t .out with eLock := none }

end Emufs

/-! The invariant -/

namespace Emufs
variable {ι : Type}

def Stage (s : Emufs ι) (thread : EmuThread) : Prop :=
  match thread.pc with
  | .incref v | .increfLocked v => 0 < thread.held v ∨ v = 0
  | .found v | .foundLocked v => v ∈ s.efVnodes
  | .close v => s.vnRefcount v = 1
  | .kill v => v ∈ s.closed ∧ s.vnRefcount v = 1
  | _ => True

structure Own (s : Emufs ι) (t : ι) (thread : EmuThread) : Prop where
  elock : thread.pc.elocked = true → s.eLock = some t
  countlock : ∀ v, thread.pc.countlocked = some v → s.vnCountlock v = some t
  stage : s.Stage thread

structure Locks (s s' : Emufs ι) (t : ι) : Prop where
  elock : s'.eLock = s.eLock ∨ s.eLock = none ∨ s.eLock = some t
  countlock : ∀ v, s'.vnCountlock v = s.vnCountlock v ∨ s.vnCountlock v = none ∨
    s.vnCountlock v = some t

variable {s s' : Emufs ι} {t : ι}

theorem Locks.of_eq (elock : s'.eLock = s.eLock)
    (countlock : s'.vnCountlock = s.vnCountlock) : s.Locks s' t :=
  ⟨.inl elock,fun v => .inl (by rw [countlock])⟩

theorem Locks.of_elock (elock : s.eLock = none ∨ s.eLock = some t)
    (countlock : s'.vnCountlock = s.vnCountlock) : s.Locks s' t :=
  ⟨.inr elock,fun v => .inl (by rw [countlock])⟩

variable {v : Nat}

theorem Locks.of_count {holder : Option ι}
    (countlock : s.vnCountlock v = none ∨ s.vnCountlock v = some t) (elock : s'.eLock = s.eLock)
    (changed : s'.vnCountlock = update s.vnCountlock v holder) : s.Locks s' t := by
  refine ⟨.inl elock,fun w => ?_⟩
  by_cases same : w = v
  · exact .inr (same ▸ countlock)
  · exact .inl (by rw [changed,update_of_ne same])

theorem Own.other {u : ι} {thread : EmuThread} (own : s.Own u thread)
    (apart : u ≠ t) (locks : s.Locks s' t)
    (table : thread.pc.elocked = true → s'.efVnodes = s.efVnodes)
    (closed : ∀ v ∈ s.closed, v ∈ s'.closed)
    (settled : ∀ v, s'.vnRefcount v = s.vnRefcount v ∨ thread.pc ≠ .close v ∧ thread.pc ≠ .kill v) :
    s'.Own u thread := by
  have free : ∀ {lock lock' : Option ι}, lock' = lock ∨ lock = none ∨ lock = some t →
      lock = some u → lock' = some u := by
    rintro lock lock' (same | none | mine) held
    · rw [same,held]
    · rw [none] at held
      cases held
    · rw [mine] at held
      exact absurd (Option.some.inj held).symm apart
  refine ⟨fun locked => free locks.elock (own.elock locked),
    fun v locked => free (locks.countlock v) (own.countlock v locked),?_⟩
  have stage := own.stage
  unfold Stage at stage ⊢
  cases here : thread.pc with
  | close v =>
    rw [here] at stage
    have same := (settled v).resolve_right fun other => other.1 here
    exact same.trans stage
  | kill v =>
    rw [here] at stage
    have same := (settled v).resolve_right fun other => other.2 here
    exact ⟨closed v stage.1,same.trans stage.2⟩
  | found v | foundLocked v =>
    rw [here] at stage
    simp only [table (by rw [here]; rfl)]
    exact stage
  | _ =>
    rw [here] at stage
    exact stage

variable [Fintype ι]

/-- Every count is the number of references, with one more for each drop that ended in
`EBUSY`. -/
structure Counted (s : Emufs ι) : Prop where
  census : Census s.efVnodes s.born s.closed
  once : s.closed.Nodup
  root : 0 ∈ s.efVnodes
  counts : ∀ v ∈ s.efVnodes,
    s.vnRefcount v = rootRef v + Crowd.total (EmuThread.refs v) s.threads + s.ebusy.count v
  gone : ∀ v, v ∉ s.efVnodes → Crowd.total (EmuThread.refs v) s.threads = 0
  surplus : ∀ v ∈ s.ebusy, v ∈ s.efVnodes
  pos : ∀ v ∈ s.efVnodes, 0 < s.vnRefcount v
  own : ∀ t, s.Own t (s.threads t)

theorem counted_mounted : (mounted : Emufs ι).Counted where
  census := ⟨by simp [mounted],by simp [mounted],by simp [mounted]⟩
  once := List.nodup_nil
  root := by simp [mounted]
  counts := by simp [mounted,rootRef,Crowd.total,EmuThread.refs,EmuPc.owes]
  gone := by simp [mounted,Crowd.total,EmuThread.refs,EmuPc.owes]
  surplus := by simp [mounted]
  pos := by simp [mounted]
  own _ := ⟨by simp [mounted,EmuPc.elocked],by simp [mounted,EmuPc.countlocked],trivial⟩

namespace Counted
variable {s s' : Emufs ι} {t : ι}
variable {v : Nat}

theorem listed (counted : s.Counted) (refs : 0 < (s.threads t).refs v) :
    v ∈ s.efVnodes := by
  by_contra absent
  have none := Crowd.total_eq_zero.mp (counted.gone v absent) t
  omega

theorem closing (counted : s.Counted) (here : (s.threads t).pc = .close v) :
    v ∈ s.efVnodes ∧ v ≠ 0 ∧ v ∉ s.ebusy ∧ Crowd.total (EmuThread.refs v) s.threads = 1 := by
  have mine : 0 < (s.threads t).refs v := by simp [EmuThread.refs,here,EmuPc.owes]
  have member := counted.listed mine
  have all := Crowd.weight_le_total (EmuThread.refs v) s.threads t
  have stage := (counted.own t).stage
  have count := counted.counts v member
  simp only [Stage,here] at stage
  refine ⟨member,?_,?_,by omega⟩
  · rintro rfl
    simp only [rootRef,if_true] at count
    omega
  · rw [← List.count_eq_zero]
    omega

theorem unlocked {u : ι} (counted : s.Counted)
    (locked : (s.threads t).pc.elocked = true) (apart : u ≠ t) :
    ¬ (s.threads u).pc.elocked = true := by
  intro theirs
  have same := ((counted.own u).elock theirs).symm.trans ((counted.own t).elock locked)
  exact apart (Option.some.inj same)

theorem settled (counted : s.Counted) {u : ι} (apart : u ≠ t)
    (counts : 0 < (s.threads t).refs v ∨ v = 0 ∨
      ((s.threads t).pc.elocked = true ∧ v ∈ s.efVnodes)) :
    (s.threads u).pc ≠ .close v ∧ (s.threads u).pc ≠ .kill v := by
  constructor
  · intro closing
    obtain ⟨member,notRoot,-,one⟩ := counted.closing closing
    rcases counts with mine | root | ⟨locked,-⟩
    · have theirs : 0 < (s.threads u).refs v := by simp [EmuThread.refs,closing,EmuPc.owes]
      exact apart (Crowd.eq_of_total_le_one (Nat.le_of_eq one) theirs mine)
    · exact notRoot root
    · have mine := (counted.own t).elock locked
      have theirs := (counted.own u).elock (by rw [closing]; rfl)
      exact apart (Option.some.inj (theirs.symm.trans mine))
  · intro killing
    have stage := (counted.own u).stage
    simp only [Stage,killing] at stage
    have absent : v ∉ s.efVnodes := fun member =>
      ((counted.census.mem_iff v).mp member).2 stage.1
    rcases counts with mine | root | ⟨-,member⟩
    · exact absent (counted.listed mine)
    · exact absent (root ▸ counted.root)
    · exact absent member

end Counted

variable [DecidableEq ι]
variable {next : EmuThread}

section
variable (counted : s.Counted) (table : s'.efVnodes = s.efVnodes) (born : s'.born = s.born)
  (closed : s'.closed = s.closed)
include counted table born closed

theorem Counted.move
    (threads : s'.threads = update s.threads t next) (locks : s.Locks s' t)
    (balance : ∀ v ∈ s.efVnodes, s'.vnRefcount v + (s.threads t).refs v + s.ebusy.count v =
      s.vnRefcount v + next.refs v + s'.ebusy.count v)
    (absent : ∀ v, v ∉ s.efVnodes → next.refs v = 0)
    (surplus : ∀ v ∈ s'.ebusy, v ∈ s.efVnodes) (pos : ∀ v ∈ s.efVnodes, 0 < s'.vnRefcount v)
    (settled : ∀ v, s'.vnRefcount v = s.vnRefcount v ∨
      ∀ u, u ≠ t → (s.threads u).pc ≠ .close v ∧ (s.threads u).pc ≠ .kill v)
    (own : s'.Own t next) : s'.Counted := by
  have total := fun v => Crowd.total_update (EmuThread.refs v) s.threads t next
  refine ⟨?_,?_,?_,fun v member => ?_,fun v gone => ?_,?_,?_,fun u => ?_⟩
  · rw [table,born,closed]
    exact counted.census
  · rw [closed]
    exact counted.once
  · rw [table]
    exact counted.root
  · rw [table] at member
    have count := counted.counts v member
    have balanced := balance v member
    have updated := total v
    rw [threads]
    omega
  · rw [table] at gone
    have none := counted.gone v gone
    have updated := total v
    have zero := absent v gone
    rw [threads]
    omega
  · rw [table]
    exact surplus
  · rw [table]
    exact pos
  · by_cases same : u = t
    · subst same
      rw [threads,update_self]
      exact own
    · rw [threads,update_of_ne same]
      refine (counted.own u).other same locks (fun _ => table) (fun v => closed ▸ id) fun v => ?_
      exact (settled v).imp_right fun quiet => quiet u same

theorem Counted.advance
    (ebusy : s'.ebusy = s.ebusy) (refcount : s'.vnRefcount = s.vnRefcount)
    (threads : s'.threads = update s.threads t next) (locks : s.Locks s' t)
    (refs : ∀ v, next.refs v = (s.threads t).refs v) (own : s'.Own t next) : s'.Counted := by
  refine counted.move table born closed threads locks (fun v _ => ?_) (fun v gone => ?_) ?_ ?_
    (fun v => .inl (by rw [refcount])) own
  · rw [refcount,refs,ebusy]
  · rw [refs]
    exact Crowd.total_eq_zero.mp (counted.gone v gone) t
  · rw [ebusy]
    exact counted.surplus
  · rw [refcount]
    exact counted.pos

theorem Counted.recount {n : Nat} (ebusy : s'.ebusy = s.ebusy)
    (refcount : s'.vnRefcount = update s.vnRefcount v n)
    (threads : s'.threads = update s.threads t next) (locks : s.Locks s' t)
    (member : v ∈ s.efVnodes) (pos : 0 < n)
    (balance : n + (s.threads t).refs v = s.vnRefcount v + next.refs v)
    (others : ∀ w, w ≠ v → next.refs w = (s.threads t).refs w)
    (counts : 0 < (s.threads t).refs v ∨ v = 0 ∨
      ((s.threads t).pc.elocked = true ∧ v ∈ s.efVnodes))
    (own : s'.Own t next) : s'.Counted := by
  refine counted.move table born closed threads locks (fun w _ => ?_) (fun w gone => ?_) ?_
    (fun w listed => ?_) (fun w => ?_) own
  · rw [refcount,ebusy]
    by_cases same : w = v
    · subst same
      rw [update_self]
      omega
    · rw [update_of_ne same,others w same]
  · rw [others w fun same => gone (same ▸ member)]
    exact Crowd.total_eq_zero.mp (counted.gone w gone) t
  · rw [ebusy]
    exact counted.surplus
  · rw [refcount]
    by_cases same : w = v
    · rw [same,update_self]
      exact pos
    · rw [update_of_ne same]
      exact counted.pos w listed
  · rw [refcount]
    by_cases same : w = v
    · exact .inr fun u apart => same ▸ counted.settled apart counts
    · exact .inl (update_of_ne same _ _)

end

theorem Counted.increfDone (counted : s.Counted)
    (here : (s.threads t).pc = .increfLocked v) :
    (((s.set t ((s.threads t).gain v)).setRefcount v (s.vnRefcount v + 1)).lockCount v none).Counted := by
  have own := counted.own t
  have stage := own.stage
  simp only [Stage,here] at stage
  have member : v ∈ s.efVnodes := by
    rcases stage with held | root
    · exact counted.listed (t := t) (Nat.lt_add_right _ held)
    · exact root ▸ counted.root
  refine counted.recount rfl rfl rfl rfl rfl rfl
    (.of_count (.inr (own.countlock v (by rw [here]; rfl))) rfl rfl) member (Nat.succ_pos _) ?_ ?_
    (stage.imp (fun held => Nat.lt_add_right _ held) .inl)
    ⟨by simp [EmuThread.gain,EmuPc.elocked],by simp [EmuThread.gain,EmuPc.countlocked],trivial⟩
  · simp only [EmuThread.refs,EmuThread.gain,here,EmuPc.owes,update_self]
    omega
  · intro w apart
    simp [EmuThread.refs,EmuThread.gain,here,EmuPc.owes,apart]

theorem Counted.decrefDrop (counted : s.Counted)
    (here : (s.threads t).pc = .decrefLocked v) (more : 1 < s.vnRefcount v) :
    (((s.goto t .out).setRefcount v (s.vnRefcount v - 1)).lockCount v none).Counted := by
  have own := counted.own t
  have mine : 0 < (s.threads t).refs v := by simp [EmuThread.refs,here,EmuPc.owes]
  refine counted.recount rfl rfl rfl rfl rfl rfl
    (.of_count (.inr (own.countlock v (by rw [here]; rfl))) rfl rfl) (counted.listed mine)
    (by omega) ?_ ?_ (.inl mine) ⟨by simp [EmuPc.elocked],by simp [EmuPc.countlocked],trivial⟩
  · simp only [EmuThread.refs,here,EmuPc.owes,if_true]
    omega
  · intro w apart
    simp [EmuThread.refs,here,EmuPc.owes,apart.symm]

theorem Counted.foundCount (counted : s.Counted)
    (here : (s.threads t).pc = .foundLocked v) :
    (((s.goto t (.foundOut v)).setRefcount v (s.vnRefcount v + 1)).lockCount v none).Counted := by
  have own := counted.own t
  have locked : (s.threads t).pc.elocked = true := by rw [here]; rfl
  have member := own.stage
  simp only [Stage,here] at member
  refine counted.recount rfl rfl rfl rfl rfl rfl
    (.of_count (.inr (own.countlock v (by rw [here]; rfl))) rfl rfl) member (Nat.succ_pos _) ?_ ?_
    (.inr (.inr ⟨locked,member⟩)) ⟨fun _ => own.elock locked,by simp [EmuPc.countlocked],trivial⟩
  · simp only [EmuThread.refs,here,EmuPc.owes,if_true]
    omega
  · intro w apart
    simp [EmuThread.refs,here,EmuPc.owes,apart.symm]

theorem Counted.reclaimBusy (counted : s.Counted)
    (here : (s.threads t).pc = .reclaimTest v) :
    ({ (s.goto t (.busy v)).lockCount v none with ebusy := s.ebusy ++ [v] } : Emufs ι).Counted := by
  have own := counted.own t
  have mine : 0 < (s.threads t).refs v := by simp [EmuThread.refs,here,EmuPc.owes]
  have member := counted.listed mine
  refine counted.move rfl rfl rfl rfl
    (.of_count (.inr (own.countlock v (by rw [here]; rfl))) rfl rfl) (fun w _ => ?_)
    (fun w gone => ?_) (fun w busy => ?_) counted.pos (fun _ => .inl rfl)
    ⟨fun _ => own.elock (by rw [here]; rfl),by simp [EmuPc.countlocked],trivial⟩
  · simp only [lockCount,goto,set,EmuThread.refs,here,EmuPc.owes,List.count_append,
      List.count_singleton,beq_iff_eq]
    omega
  · have none := Crowd.total_eq_zero.mp (counted.gone w gone) t
    simp only [EmuThread.refs,here,EmuPc.owes] at none ⊢
    omega
  · rcases List.mem_append.mp busy with old | new
    · exact counted.surplus w old
    · exact List.mem_singleton.mp new ▸ member

theorem Counted.close (counted : s.Counted)
    (here : (s.threads t).pc = .close v) :
    ({ s.goto t (.kill v) with
        efVnodes := s.efVnodes.erase v, closed := v :: s.closed, eLock := none } : Emufs ι).Counted := by
  obtain ⟨member,notRoot,noSurplus,one⟩ := counted.closing here
  have locked : (s.threads t).pc.elocked = true := by rw [here]; rfl
  have stage := (counted.own t).stage
  simp only [Stage,here] at stage
  have census : Census (s.efVnodes.erase v ++ [v]) s.born s.closed :=
    counted.census.perm ((List.perm_append_singleton v _).trans (List.perm_cons_erase member).symm)
  have mem_iff : ∀ w, w ∈ s.efVnodes.erase v ↔ w ≠ v ∧ w ∈ s.efVnodes :=
    fun w => counted.census.nodup.mem_erase_iff
  have total := fun w => Crowd.total_update (EmuThread.refs w) s.threads t
    { s.threads t with pc := .kill v }
  simp only [EmuThread.refs,here,EmuPc.owes,Nat.add_zero] at total
  refine ⟨census.bury,?_,?_,fun w listed => ?_,fun w gone => ?_,fun w busy => ?_,fun w listed => ?_,
    fun u => ?_⟩
  · exact List.nodup_cons.mpr ⟨((counted.census.mem_iff v).mp member).2,counted.once⟩
  · exact (mem_iff 0).mpr ⟨notRoot.symm,counted.root⟩
  · obtain ⟨apart,listed⟩ := (mem_iff w).mp listed
    have count := counted.counts w listed
    have updated := total w
    rw [if_neg apart.symm] at updated
    simp only [goto,set]
    omega
  · have updated := total w
    simp only [goto,set]
    by_cases same : w = v
    · subst same
      rw [if_pos rfl] at updated
      omega
    · have none := counted.gone w fun listed => gone ((mem_iff w).mpr ⟨same,listed⟩)
      omega
  · exact (mem_iff w).mpr ⟨fun same => noSurplus (same ▸ busy),counted.surplus w busy⟩
  · exact counted.pos w ((mem_iff w).mp listed).2
  · by_cases same : u = t
    · subst same
      simp only [goto,set,update_self]
      exact ⟨by simp [EmuPc.elocked],by simp [EmuPc.countlocked],List.mem_cons_self,stage⟩
    · simp only [goto,set,update_of_ne same]
      exact (counted.own u).other same (.of_elock (.inr ((counted.own t).elock locked)) rfl)
        (fun theirs => absurd theirs (counted.unlocked locked same))
        (fun w => List.mem_cons_of_mem _) fun _ => .inl rfl

theorem Counted.loadCreate {handle : Nat} (counted : s.Counted)
    (here : (s.threads t).pc = .loadLocked handle) :
    ({ (s.create handle).set t ((s.threads t).gain s.born) with eLock := none } : Emufs ι).Counted := by
  have locked : (s.threads t).pc.elocked = true := by rw [here]; rfl
  have unborn := counted.census.unborn
  have none := counted.gone _ unborn
  have total := fun w => Crowd.total_update (EmuThread.refs w) s.threads t
    ((s.threads t).gain s.born)
  simp only [EmuThread.refs,EmuThread.gain,here,EmuPc.owes,Nat.add_zero] at total
  refine ⟨?_,counted.once,List.mem_append_left _ counted.root,fun w listed => ?_,fun w gone => ?_,
    fun w busy => List.mem_append_left _ (counted.surplus w busy),fun w listed => ?_,fun u => ?_⟩
  · exact counted.census.birth.perm (List.perm_append_singleton _ _)
  · have updated := total w
    simp only [create,set]
    rcases List.mem_append.mp listed with old | new
    · have apart : w ≠ s.born := fun same => unborn (same ▸ old)
      have count := counted.counts w old
      rw [update_of_ne apart] at updated
      rw [update_of_ne apart]
      simp only [EmuThread.gain]
      omega
    · obtain rfl := List.mem_singleton.mp new
      have notRoot : s.born ≠ 0 := fun zero => unborn (zero ▸ counted.root)
      have clean : s.ebusy.count s.born = 0 :=
        List.count_eq_zero.mpr fun busy => unborn (counted.surplus _ busy)
      rw [update_self] at updated
      rw [update_self,rootRef,if_neg notRoot,clean]
      simp only [EmuThread.gain]
      omega
  · have apart : w ≠ s.born := fun same => gone (List.mem_append_right _ (List.mem_singleton.mpr same))
    have zero := counted.gone w fun old => gone (List.mem_append_left _ old)
    have updated := total w
    rw [update_of_ne apart] at updated
    simp only [create,set,EmuThread.gain]
    omega
  · simp only [create,set]
    rcases List.mem_append.mp listed with old | new
    · have apart : w ≠ s.born := fun same => unborn (same ▸ old)
      rw [update_of_ne apart]
      exact counted.pos w old
    · rw [List.mem_singleton.mp new,update_self]
      exact Nat.one_pos
  · by_cases same : u = t
    · subst same
      simp only [set,update_self]
      exact ⟨by simp [EmuThread.gain,EmuPc.elocked],by simp [EmuThread.gain,EmuPc.countlocked],trivial⟩
    · simp only [create,set,update_of_ne same]
      refine (counted.own u).other same (.of_elock (.inr ((counted.own t).elock locked)) rfl)
        (fun theirs => absurd theirs (counted.unlocked locked same)) (fun w => id) fun w => ?_
      by_cases new : w = s.born
      · subst new
        refine .inr ⟨fun closing => unborn (counted.closing closing).1,fun killing => ?_⟩
        have stage := (counted.own u).stage
        simp only [Stage,killing] at stage
        exact Nat.lt_irrefl _ (counted.census.gone_lt _ stage.1)
      · exact .inl (update_of_ne new _ _)

variable {pc pc' : EmuPc}

theorem refs_goto {thread : EmuThread} (here : thread.pc = pc)
    (owes : ∀ v, pc'.owes v = pc.owes v) (v : Nat) :
    EmuThread.refs v { thread with pc := pc' } = thread.refs v := by
  rw [EmuThread.refs,EmuThread.refs,here,owes]

section
variable (counted : s.Counted) (here : (s.threads t).pc = pc)
include counted here

theorem Counted.goOn (owes : ∀ v, pc'.owes v = pc.owes v)
    (elocked : pc'.elocked = pc.elocked) (unlocked : pc'.countlocked = none)
    (stage : s.Stage { s.threads t with pc := pc' }) : (s.goto t pc').Counted := by
  have own := counted.own t
  refine counted.advance rfl rfl rfl rfl rfl rfl (.of_eq rfl rfl) (refs_goto here owes)
    ⟨fun locked => own.elock ?_,fun v locked => ?_,stage⟩
  · rw [here,← elocked]
    exact locked
  · exact absurd (unlocked.symm.trans locked) (Option.some_ne_none v).symm

theorem Counted.takeCount (free : s.vnCountlock v = none)
    (owes : ∀ w, pc'.owes w = pc.owes w) (elocked : pc'.elocked = pc.elocked)
    (takes : pc'.countlocked = some v) (stage : s.Stage { s.threads t with pc := pc' }) :
    ((s.goto t pc').lockCount v (some t)).Counted := by
  have own := counted.own t
  refine counted.advance rfl rfl rfl rfl rfl rfl (.of_count (.inl free) rfl rfl)
    (refs_goto here owes) ⟨fun locked => own.elock ?_,fun w locked => ?_,stage⟩
  · rw [here,← elocked]
    exact locked
  · obtain rfl : v = w := Option.some.inj (takes.symm.trans locked)
    exact update_self _ _ _

theorem Counted.dropCount (held : pc.countlocked = some v)
    (owes : ∀ w, pc'.owes w = pc.owes w) (elocked : pc'.elocked = pc.elocked)
    (drops : pc'.countlocked = none) (stage : s.Stage { s.threads t with pc := pc' }) :
    ((s.goto t pc').lockCount v none).Counted := by
  have own := counted.own t
  have mine := own.countlock v (here ▸ held)
  refine counted.advance rfl rfl rfl rfl rfl rfl (.of_count (.inr mine) rfl rfl)
    (refs_goto here owes) ⟨fun locked => own.elock ?_,fun w locked => ?_,stage⟩
  · rw [here,← elocked]
    exact locked
  · exact absurd (drops.symm.trans locked) (Option.some_ne_none w).symm

theorem Counted.turnLock {holder : Option ι}
    (mine : s.eLock = none ∨ pc.elocked = true) (owes : ∀ v, pc'.owes v = pc.owes v)
    (takes : pc'.elocked = true → holder = some t) (unlocked : pc'.countlocked = none)
    (stage : s.Stage { s.threads t with pc := pc' }) :
    ({ s.goto t pc' with eLock := holder } : Emufs ι).Counted := by
  have lock := mine.imp_right fun locked => (counted.own t).elock (here ▸ locked)
  exact counted.advance rfl rfl rfl rfl rfl rfl (.of_elock lock rfl) (refs_goto here owes)
    ⟨takes,fun v locked => absurd (unlocked.symm.trans locked) (Option.some_ne_none v).symm,stage⟩

end

theorem Counted.foundDone (counted : s.Counted)
    (here : (s.threads t).pc = .foundOut v) :
    ({ s.set t ((s.threads t).gain v) with eLock := none } : Emufs ι).Counted := by
  have mine := (counted.own t).elock (by rw [here]; rfl)
  refine counted.advance rfl rfl rfl rfl rfl rfl (.of_elock (.inr mine) rfl) (fun w => ?_)
    ⟨by simp [EmuThread.gain,EmuPc.elocked],by simp [EmuThread.gain,EmuPc.countlocked],trivial⟩
  by_cases same : w = v
  · subst same
    simp [EmuThread.refs,EmuThread.gain,here,EmuPc.owes]
  · simp [EmuThread.refs,EmuThread.gain,here,EmuPc.owes,same,Ne.symm same]

theorem Counted.decref (counted : s.Counted)
    (here : (s.threads t).pc = .out) (held : 0 < (s.threads t).held v) :
    (s.set t ((s.threads t).give v)).Counted := by
  refine counted.advance rfl rfl rfl rfl rfl rfl (.of_eq rfl rfl) (fun w => ?_)
    ⟨by simp [EmuThread.give,EmuPc.elocked],by simp [EmuThread.give,EmuPc.countlocked],trivial⟩
  by_cases same : w = v
  · subst same
    simp only [EmuThread.refs,EmuThread.give,here,EmuPc.owes,update_self,if_true]
    omega
  · simp [EmuThread.refs,EmuThread.give,here,EmuPc.owes,same,Ne.symm same]

theorem Counted.step (counted : s.Counted) (step : Step s s') : s'.Counted := by
  have stage := fun t => (counted.own t).stage
  simp only [Stage] at stage
  cases step with
  | incref t v here allowed => exact counted.goOn here (fun _ => rfl) rfl rfl allowed
  | increfLock t v here free =>
    have allowed := stage t
    rw [here] at allowed
    exact counted.takeCount here free (fun _ => rfl) rfl rfl allowed
  | increfDone t v here => exact counted.increfDone here
  | decref t v here held => exact counted.decref here held
  | decrefLock t v here free => exact counted.takeCount here free (fun _ => rfl) rfl rfl trivial
  | decrefDrop t v here more => exact counted.decrefDrop here more
  | decrefLast t v here _ => exact counted.dropCount here rfl (fun _ => rfl) rfl rfl trivial
  | reclaimLock t v here free =>
    exact counted.turnLock here (.inl free) (fun _ => rfl) (fun _ => rfl) rfl trivial
  | reclaimCount t v here free =>
    exact counted.takeCount here free (fun _ => rfl) rfl rfl trivial
  | reclaimBusy t v here _ => exact counted.reclaimBusy here
  | reclaimFails t v here =>
    exact counted.turnLock here (.inr rfl) (fun _ => rfl) (fun locked => nomatch locked) rfl trivial
  | reclaimLast t v here last => exact counted.dropCount here rfl (fun _ => rfl) rfl rfl last
  | close t v here => exact counted.close here
  | kill t v here => exact counted.goOn here (fun _ => rfl) rfl rfl trivial
  | load t handle here => exact counted.goOn here (fun _ => rfl) rfl rfl trivial
  | loadLock t handle here free =>
    exact counted.turnLock here (.inl free) (fun _ => rfl) (fun _ => rfl) rfl trivial
  | loadFound t handle v here found =>
    exact counted.goOn here (fun _ => rfl) rfl rfl (List.mem_of_find?_eq_some found)
  | foundLock t v here free =>
    have member := stage t
    rw [here] at member
    exact counted.takeCount here free (fun _ => rfl) rfl rfl member
  | foundCount t v here => exact counted.foundCount here
  | foundDone t v here => exact counted.foundDone here
  | loadCreate t handle here _ => exact counted.loadCreate here
  | loadFails t handle here _ =>
    exact counted.turnLock here (.inr rfl) (fun _ => rfl) (fun locked => nomatch locked) rfl trivial

def Quiet (s : Emufs ι) : Prop := ∀ t, (s.threads t).pc = .out

def holders (s : Emufs ι) (v : Nat) : Nat := Crowd.total (fun thread => thread.held v) s.threads

/-- Every vnode of the table has its references counted, and one without references has been
removed from the table and its handle closed once. -/
def Exact (s : Emufs ι) : Prop :=
  (∀ v ∈ s.efVnodes, s.vnRefcount v = s.holders v + rootRef v) ∧
    ∀ v, v < s.born → v ≠ 0 → s.holders v = 0 → v ∉ s.efVnodes ∧ s.closed.count v = 1

omit [DecidableEq ι] in
theorem Quiet.total_refs (quiet : s.Quiet) (v : Nat) :
    Crowd.total (EmuThread.refs v) s.threads = s.holders v := by
  refine Finset.sum_congr rfl fun t _ => ?_
  simp [EmuThread.refs,quiet t,EmuPc.owes]

/-- After every run, when no thread is inside, the counts are exact if and only if no
`emufs_reclaim` of the run has found a count other than one. -/
theorem emufs_counts_exact_iff {s : Emufs ι}
    (run : Relation.ReflTransGen Step (mounted : Emufs ι) s) (quiet : s.Quiet) :
    s.Exact ↔ s.ebusy = [] := by
  have counted : s.Counted := Run.keeps (fun _ _ kept step => kept.step step) run counted_mounted
  have counts := counted.counts
  simp only [quiet.total_refs] at counts
  constructor
  · intro sound
    by_contra some
    -- the surplus of a vnode that was busy is never taken back
    obtain ⟨v,busy⟩ := List.exists_mem_of_ne_nil _ some
    have member := counted.surplus v busy
    have surplus := List.count_pos_iff.mpr busy
    have count := counts v member
    have counted' := sound.1 v member
    omega
  · intro clean
    refine ⟨fun v member => ?_,fun v born notRoot none => ?_⟩
    · have count := counts v member
      rw [clean,List.count_nil] at count
      omega
    · have absent : v ∉ s.efVnodes := fun member => by
        have count := counts v member
        have pos := counted.pos v member
        rw [clean,List.count_nil,none,rootRef,if_neg notRoot] at count
        omega
      refine ⟨absent,List.count_eq_one_of_mem counted.once ?_⟩
      by_contra open_
      exact absent ((counted.census.mem_iff v).mpr ⟨born,open_⟩)

/-- A thread looks a handle up and drops the vnode again. -/
theorem emufs_counts_exact_alone : ∃ s : Emufs (Fin 1), s.closed = [1] ∧ s.Exact := by
  have loaded := Relation.ReflTransGen.single (Step.load (s := (mounted : Emufs (Fin 1))) 0 5 rfl)
    |>.tail (.loadLock 0 5 rfl rfl) |>.tail (.loadCreate 0 5 rfl rfl)
  have dropped := loaded.tail (.decref 0 1 rfl (by decide)) |>.tail (.decrefLock 0 1 rfl rfl)
    |>.tail (.decrefLast 0 1 rfl (by decide)) |>.tail (.reclaimLock 0 1 rfl rfl)
    |>.tail (.reclaimCount 0 1 rfl rfl) |>.tail (.reclaimLast 0 1 rfl rfl)
    |>.tail (.close 0 1 rfl) |>.tail (.kill 0 1 rfl)
  exact ⟨_,rfl,(emufs_counts_exact_iff dropped (by unfold Quiet; decide)).mpr rfl⟩

/-- Between the test of `vnode_decref` and that of `emufs_reclaim` a second thread takes the
vnode from the table. When both have dropped it, it is still there with a count of one. -/
theorem emufs_busy_leaks : ∃ s : Emufs (Fin 2), Relation.ReflTransGen Step mounted s ∧ s.Quiet ∧
    1 ∈ s.efVnodes ∧ s.vnRefcount 1 = 1 ∧ s.holders 1 = 0 ∧ s.closed = [] ∧ ¬ s.Exact := by
  have loaded := Relation.ReflTransGen.single (Step.load (s := (mounted : Emufs (Fin 2))) 0 5 rfl)
    |>.tail (.loadLock 0 5 rfl rfl) |>.tail (.loadCreate 0 5 rfl rfl)
  have last := loaded.tail (.decref 0 1 rfl (by decide)) |>.tail (.decrefLock 0 1 rfl rfl)
    |>.tail (.decrefLast 0 1 rfl (by decide))
  have taken := last.tail (.load 1 5 rfl) |>.tail (.loadLock 1 5 rfl rfl)
    |>.tail (.loadFound 1 5 1 rfl rfl) |>.tail (.foundLock 1 1 rfl rfl)
    |>.tail (.foundCount 1 1 rfl) |>.tail (.foundDone 1 1 rfl)
  have busy := taken.tail (.reclaimLock 0 1 rfl rfl) |>.tail (.reclaimCount 0 1 rfl rfl)
    |>.tail (.reclaimBusy 0 1 rfl (by decide)) |>.tail (.reclaimFails 0 1 rfl)
  have dropped := busy.tail (.decref 1 1 rfl (by decide)) |>.tail (.decrefLock 1 1 rfl rfl)
    |>.tail (.decrefDrop 1 1 rfl (by decide))
  refine ⟨_,dropped,by unfold Quiet; decide,by decide,rfl,by decide,rfl,fun sound => ?_⟩
  exact absurd (sound.1 1 (by decide)) (by decide)

end Emufs
end Os161
