import Mathlib.Data.BitVec
import Os161.Kernel

/-! `lamebus_interrupt` of `dev/lamebus/lamebus.c`, and how it counts interrupts that nobody
handles. -/
namespace Os161.Lamebus

/-- Function pointers are addresses, with 0 for `NULL`. -/
structure LamebusSoftc where
  lsSlotsinuse : BitVec 32
  lsDevdata : Nat → Nat
  lsIrqfuncs : Nat → Nat

inductive Message where
  | strayInterrupt
  | dudInterrupts (duds : Nat)
  deriving DecidableEq, Repr

inductive BusPanic where
  | spl | noBus
  | tooManyDuds (duds : Nat)
  -- undefined behaviour: `duds` is an `int`
  | dudsOverflow
  -- of an interrupt handler
  | driver (site : Nat)
  deriving DecidableEq, Repr

/-- `irqs` is the register of the bus controller; `duds` is the static variable of
`lamebus_interrupt`. -/
structure BusState where
  irqs : BitVec 32
  softc : LamebusSoftc
  curspl : Nat
  duds : Nat
  printed : List Message

abbrev Bus := Exec BusState Empty BusPanic

/-- The locals of a call, and the number of handlers that it has called. -/
structure Locals where
  irqs : BitVec 32
  dudsThisTime : Nat
  dispatched : Nat

def kprintf (message : Message) : Bus Unit :=
  modify fun s => { s with printed := s.printed ++ [message] }

def countDud : Bus Unit := do
  let s ← read
  assert (s.duds + 1 < 2^31) .dudsOverflow
  put { s with duds := s.duds + 1 }

/-- What the handlers do is left open: they may change everything, the count included, since other
interrupts come while `hardclock` lets other threads run. -/
abbrev Handlers := Nat → Nat → Bus Unit

def interruptSlot (handlers : Handlers) (slot : Nat) (l : Locals) : Bus Locals := do
  let s ← read
  if !l.irqs.getLsbD slot then return l
  else if !s.softc.lsSlotsinuse.getLsbD slot then
    countDud
    return { l with dudsThisTime := l.dudsThisTime + 1 }
  else if s.softc.lsIrqfuncs slot = 0 then
    countDud
    return { l with dudsThisTime := l.dudsThisTime + 1 }
  else
    handlers (s.softc.lsIrqfuncs slot) (s.softc.lsDevdata slot)
    let t ← read
    return { l with irqs := t.irqs, dispatched := l.dispatched + 1 }

def interruptSlots (handlers : Handlers) (irqs : BitVec 32) : Bus Locals :=
  loop (interruptSlot handlers) 32 0 ⟨irqs,0,0⟩

def interruptEnd (l : Locals) : Bus Unit := do
  let s ← read
  if l.dudsThisTime = 0 ∧ s.duds > 0 then
    kprintf (.dudInterrupts s.duds)
    modify fun t => { t with duds := 0 }
  else pure ()
  let s ← read
  assert (!(s.duds > 10000)) (.tooManyDuds s.duds)

/-- `present` tells whether the pointer to the bus is there. The source returns at once from a stray
interrupt, past the comment that says why it does not. -/
def lamebusInterrupt (handlers : Handlers) (present : Bool) : Bus Unit := do
  let s ← read
  assert (s.curspl > 0) .spl
  assert present .noBus
  if s.irqs = 0#32 then
    kprintf .strayInterrupt
    countDud
  else
    let l ← interruptSlots handlers s.irqs
    interruptEnd l

/-! Runs of interrupts -/

/-- An interrupt as the machine delivers it, with interrupts off. -/
structure Interrupt where
  irqs : BitVec 32
  softc : LamebusSoftc
  curspl : Nat
  raised : 0 < curspl

/-- The number of slots that assert among the first `n`. -/
def asserting (irqs : BitVec 32) (n : Nat) : Nat := (List.range n).countP irqs.getLsbD

namespace Interrupt

def arrive (i : Interrupt) (s : BusState) : BusState :=
  { s with irqs := i.irqs, softc := i.softc, curspl := i.curspl }

/-- No slot asserts, or only slots that are unused or have no handler. -/
def DudOnly (i : Interrupt) : Prop := ∀ slot < 32, i.irqs.getLsbD slot = true →
  i.softc.lsSlotsinuse.getLsbD slot = false ∨ i.softc.lsIrqfuncs slot = 0

/-- What such a call adds to the count: one for a stray interrupt, and otherwise one for each slot
that asserts. -/
def duds (i : Interrupt) : Nat := if i.irqs = 0#32 then 1 else asserting i.irqs 32

end Interrupt

def interrupts (handlers : Handlers) (calls : Nat → Interrupt) (n : Nat) : Bus Unit :=
  loop (fun i _ => do modify (calls i).arrive; lamebusInterrupt handlers true) n 0 ()

def dudsOf (calls : Nat → Interrupt) : Nat → Nat
  | 0 => 0
  | n + 1 => dudsOf calls n + (calls n).duds

theorem dudsOf_le {calls : Nat → Interrupt} {m n : Nat} (le : m ≤ n) :
    dudsOf calls m ≤ dudsOf calls n := by
  induction le with
  | refl => exact Nat.le_refl _
  | step _ ih => exact Nat.le_trans ih (Nat.le_add_right _ _)

section Count
variable (handlers : Handlers) {s : BusState}

theorem wp_countDud {ok : Unit → BusState → Prop} {err : Empty → BusState → Prop}
    {halt : BusPanic → BusState → Prop} : countDud.wp s ok err halt ↔
      if s.duds + 1 < 2^31 then ok () { s with duds := s.duds + 1 } else halt .dudsOverflow s := by
  simp only [countDud,wp_bind,wp_read,wp_assert,wp_put,decide_eq_true_eq]

theorem asserting_succ (irqs : BitVec 32) (n : Nat) :
    asserting irqs (n + 1) = asserting irqs n + if irqs.getLsbD n then 1 else 0 := by
  simp only [asserting,List.range_succ,List.countP_append,List.countP_singleton]

theorem asserting_le {irqs : BitVec 32} {m n : Nat} (le : m ≤ n) :
    asserting irqs m ≤ asserting irqs n := by
  induction le with
  | refl => exact Nat.le_refl _
  | step _ ih =>
    rw [asserting_succ]
    omega

theorem asserting_pos {irqs : BitVec 32} (some_ : irqs ≠ 0#32) : 0 < asserting irqs 32 := by
  rw [asserting,List.countP_pos_iff]
  by_contra none
  refine some_ (BitVec.eq_of_getLsbD_eq fun slot small => ?_)
  rw [BitVec.getLsbD_zero,← Bool.not_eq_true]
  exact fun set => none ⟨slot,List.mem_range.mpr small,set⟩

/-- The locals and the state when `n` slots have been looked at. -/
structure Counted (s : BusState) (irqs : BitVec 32) (n : Nat) (l : Locals) (t : BusState) : Prop where
  locals : l = ⟨irqs,asserting irqs n,0⟩
  state : t = { s with duds := s.duds + asserting irqs n }
  fits : asserting irqs n = 0 ∨ s.duds + asserting irqs n < 2^31

theorem interruptSlot_dud {irqs : BitVec 32} {slot : Nat} {l : Locals} {t : BusState} (small : slot < 32)
    (dud : irqs.getLsbD slot = true →
      s.softc.lsSlotsinuse.getLsbD slot = false ∨ s.softc.lsIrqfuncs slot = 0)
    (counted : Counted s irqs slot l t) :
    (interruptSlot handlers slot l).wp t (Counted s irqs (slot + 1)) never
      fun p _ => p = .dudsOverflow ∧ 2^31 ≤ s.duds + asserting irqs 32 := by
  obtain ⟨rfl,rfl,fits⟩ := counted
  simp only [interruptSlot,wp_bind,wp_read]
  by_cases set : irqs.getLsbD slot = true
  · have next : asserting irqs (slot + 1) = asserting irqs slot + 1 := by
      rw [asserting_succ,if_pos set]
    have bound : asserting irqs (slot + 1) ≤ asserting irqs 32 := asserting_le small
    have counts : (do countDud; return (⟨irqs,asserting irqs slot + 1,0⟩ : Locals) : Bus Locals).wp
        { s with duds := s.duds + asserting irqs slot } (Counted s irqs (slot + 1)) never
        fun p _ => p = .dudsOverflow ∧ 2^31 ≤ s.duds + asserting irqs 32 := by
      rw [wp_bind,wp_countDud]
      split
      case isTrue room =>
        simp only at room
        refine ⟨by rw [next],by rw [next,Nat.add_assoc],.inr ?_⟩
        omega
      case isFalse full =>
        simp only at full
        exact ⟨rfl,by omega⟩
    rw [if_neg (by simp [set])]
    rcases dud set with unused | noHandler
    · rw [if_pos (by simp [unused])]
      exact counts
    · rw [if_pos noHandler,ite_self]
      exact counts
  · have next : asserting irqs (slot + 1) = asserting irqs slot := by
      rw [asserting_succ,if_neg set]
      rfl
    rw [if_pos (by simp [set]),wp_pure]
    exact ⟨by rw [next],by rw [next],by rwa [next]⟩

theorem interruptSlots_dud {irqs : BitVec 32} (dud : ∀ slot < 32, irqs.getLsbD slot = true →
      s.softc.lsSlotsinuse.getLsbD slot = false ∨ s.softc.lsIrqfuncs slot = 0) :
    (interruptSlots handlers irqs).wp s (Counted s irqs 32) never
      fun p _ => p = .dudsOverflow ∧ 2^31 ≤ s.duds + asserting irqs 32 := by
  refine wp_loop_zero (Counted s irqs) 32 _ ⟨rfl,rfl,.inl rfl⟩ ?_
  exact fun slot l t small counted => interruptSlot_dud handlers small (dud slot small) counted

/-- A call that sees a slot assert and has counted to `duds` finds that there are too many. -/
def Interrupt.Detects (i : Interrupt) (duds : Nat) : Prop :=
  i.irqs ≠ 0#32 ∧ 10000 < duds ∧ duds < 2^31

theorem lamebusInterrupt_dud {i : Interrupt} (only : i.DudOnly) :
    (lamebusInterrupt handlers true).wp (i.arrive s)
      (fun _ t => t.duds = s.duds + i.duds ∧ ¬ i.Detects (s.duds + i.duds)) never
      fun p _ => (∃ duds, p = .tooManyDuds duds) ∧ i.Detects (s.duds + i.duds) ∨
        p = .dudsOverflow ∧ 2^31 ≤ s.duds + i.duds := by
  simp only [lamebusInterrupt,wp_bind,wp_read,wp_assert,Interrupt.arrive,i.raised,decide_true,if_true]
  rw [wp_ite]
  refine ⟨fun stray => ?_,fun some_ => ?_⟩
  · have one : i.duds = 1 := if_pos stray
    rw [kprintf,wp_bind,wp_modify,wp_countDud,one]
    split
    case isTrue room => exact ⟨rfl,fun detects => detects.1 stray⟩
    case isFalse full => exact .inr ⟨rfl,Nat.le_of_not_lt full⟩
  · have all : i.duds = asserting i.irqs 32 := if_neg some_
    have positive := asserting_pos some_
    rw [wp_bind,all]
    apply wp_sure (interruptSlots_dud handlers (s := i.arrive s) only)
    · rintro l t ⟨rfl,rfl,fits⟩
      have small : s.duds + asserting i.irqs 32 < 2^31 := fits.resolve_left (by omega)
      simp only [interruptEnd,wp_bind,wp_read,Interrupt.arrive]
      rw [if_neg (by omega)]
      simp only [wp_bind,wp_read,wp_assert]
      by_cases many : 10000 < s.duds + asserting i.irqs 32
      · rw [if_neg (by simpa using many)]
        exact .inl ⟨⟨_,rfl⟩,some_,many,small⟩
      · rw [if_pos (by simpa using many)]
        exact ⟨trivial,fun detects => many detects.2.1⟩
    · exact fun _ _ overflow => .inr overflow

theorem interrupts_spec {calls : Nat → Interrupt} (only : ∀ i, (calls i).DudOnly) (n : Nat) :
    (interrupts handlers calls n).wp s
      (fun _ _ => ¬ ∃ j < n, (calls j).Detects (s.duds + dudsOf calls (j + 1))) never
      fun p _ => (∃ duds, p = .tooManyDuds duds) ∧
          (∃ j < n, (calls j).Detects (s.duds + dudsOf calls (j + 1))) ∨
        p = .dudsOverflow ∧ ¬ ∃ j < n, (calls j).Detects (s.duds + dudsOf calls (j + 1)) := by
  apply wp_imp (wp_loop_zero (fun i _ (t : BusState) => t.duds = s.duds + dudsOf calls i ∧
    ∀ j < i, ¬ (calls j).Detects (s.duds + dudsOf calls (j + 1))) n ()
    ⟨rfl,fun j none => absurd none (Nat.not_lt_zero j)⟩ ?_)
  · rintro _ t ⟨-,undetected⟩ ⟨j,small,detects⟩
    exact undetected j small detects
  rintro i _ t small ⟨count,undetected⟩
  have total : t.duds + (calls i).duds = s.duds + dudsOf calls (i + 1) := by
    rw [count,dudsOf,Nat.add_assoc]
  rw [wp_bind,wp_modify]
  have call := lamebusInterrupt_dud handlers (s := t) (only i)
  rw [total] at call
  apply wp_sure call
  · rintro _ u ⟨next,undetected'⟩
    refine ⟨next,fun j lt => ?_⟩
    rcases Nat.lt_succ_iff_lt_or_eq.mp lt with before | rfl
    · exact undetected j before
    · exact undetected'
  · rintro p u (⟨many,detects⟩ | ⟨rfl,full⟩)
    · exact .inl ⟨many,i,small,detects⟩
    · refine .inr ⟨rfl,?_⟩
      rintro ⟨j,-,detects⟩
      rcases Nat.lt_or_ge j i with before | after
      · exact undetected j before detects
      · have more : dudsOf calls (i + 1) ≤ dudsOf calls (j + 1) := dudsOf_le (by omega)
        have := detects.2.2
        omega

theorem interruptEnd_clean {l : Locals} (clean : l.dudsThisTime = 0) :
    (interruptEnd l).wp s (fun _ t => t.duds = 0) never never := by
  simp only [interruptEnd,kprintf,wp_bind,wp_read]
  rw [wp_ite]
  refine ⟨fun _ => ?_,fun none => ?_⟩
  · simp
  · have zero : s.duds = 0 := by
      by_contra some_
      exact none ⟨clean,Nat.pos_of_ne_zero some_⟩
    simp [zero]

end Count

/-- A stuck interrupt is found out by a call in which a slot asserts, and not by stray interrupts. A
call that has called a handler and seen no dud resets the count. -/
theorem stuck_interrupt_detected_iff (handlers : Handlers) :
    (∀ (s : BusState) (calls : Nat → Interrupt), (∀ i, (calls i).DudOnly) →
      ((interrupts handlers calls 10001).wp s (fun _ _ => False) (fun _ _ => False)
          (fun p _ => ∃ duds, p = .tooManyDuds duds) ↔
        ∃ j < 10001, (calls j).irqs ≠ 0#32 ∧ 10000 < s.duds + dudsOf calls (j + 1) ∧
          s.duds + dudsOf calls (j + 1) < 2^31)) ∧
    ∀ (s : BusState) (call : Interrupt) (l : Locals) (t : BusState),
      interruptSlots handlers call.irqs (call.arrive s) = (.ok l,t) → l.dudsThisTime = 0 →
      0 < l.dispatched → (lamebusInterrupt handlers true).wp (call.arrive s) (fun _ u => u.duds = 0)
        (fun _ _ => False) fun _ _ => False := by
  refine ⟨fun s calls only => ?_,fun s call l t ran clean some_ => ?_⟩
  · refine wp_iff (wp_mono (interrupts_spec handlers only 10001) ?_ ?_ ?_)
    · exact fun _ _ undetected => ⟨False.elim,undetected⟩
    · exact fun _ _ => False.elim
    · rintro p u (⟨many,detected⟩ | ⟨rfl,undetected⟩)
      · exact ⟨fun _ => detected,fun _ => many⟩
      · refine ⟨fun many => ?_,fun detected => absurd detected undetected⟩
        obtain ⟨duds,eq⟩ := many
        cases eq
  · have asserts : call.irqs ≠ 0#32 := by
      intro stray
      have none := wp_ok (interruptSlots_dud handlers (s := call.arrive s)
        fun slot _ set => by simp [stray] at set) ran
      rw [none.locals] at some_
      exact absurd some_ (Nat.lt_irrefl 0)
    simp only [lamebusInterrupt,wp_bind,wp_read,wp_assert,Interrupt.arrive,call.raised,decide_true,if_true]
    rw [if_neg asserts,wp_bind]
    exact wp_of_ok ran (interruptEnd_clean clean)

def boot (duds : Nat) : BusState := ⟨0#32,⟨0#32,fun _ => 0,fun _ => 0⟩,0,duds,[]⟩

def unclaimed (irqs : BitVec 32) : Interrupt := ⟨irqs,⟨0#32,fun _ => 0,fun _ => 0⟩,1,Nat.one_pos⟩

theorem unclaimed_dudOnly (irqs : BitVec 32) : (unclaimed irqs).DudOnly := fun _ _ _ => .inr rfl

theorem stuck_interrupt_detected : (interrupts (fun _ _ => pure ()) (fun _ => unclaimed 1#32) 10001).wp
    (boot 10000) (fun _ _ => False) (fun _ _ => False) (fun p _ => ∃ duds, p = .tooManyDuds duds) :=
  ((stuck_interrupt_detected_iff fun _ _ => pure ()).1 (boot 10000) (fun _ => unclaimed 1#32)
    fun _ => unclaimed_dudOnly _).mpr ⟨0,by decide,by decide,by decide,by decide⟩

theorem stray_interrupts_undetected : (unclaimed 0#32).DudOnly ∧
    ¬ (interrupts (fun _ _ => pure ()) (fun _ => unclaimed 0#32) 10001).wp (boot 0)
      (fun _ _ => False) (fun _ _ => False) (fun p _ => ∃ duds, p = .tooManyDuds duds) := by
  refine ⟨unclaimed_dudOnly _,?_⟩
  apply not_wp_of_wp (interrupts_spec _ (fun _ => unclaimed_dudOnly 0#32) 10001)
  · exact fun _ _ _ => id
  · exact fun _ _ => False.elim
  · rintro p t (⟨-,j,-,asserts,-⟩ | ⟨rfl,-⟩)
    · exact absurd rfl asserts
    · rintro ⟨duds,eq⟩
      cases eq

end Os161.Lamebus
