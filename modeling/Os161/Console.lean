import Os161.Interleaving

/-! The console: `putch` and `getch` of `dev/generic/console.c` on the serial driver
`dev/lamebus/lser.c`, for any number of callers and interrupts. What runs with interrupts
off is one step, except `lser_writepolled`, which waits for the device inside: until it
returns only the device and the code that spins on it move. -/
namespace Os161

open Function (update)

/-- A caller of `putch` at `curspl = 0`: outside, in `P(cs_wsem)`, or between that and
`lser_write`. -/
inductive Putch where
  | out | proberen (ch : Nat) | clear (ch : Nat)
  deriving DecidableEq, Repr

/-- A caller of `getch`: outside, in `P(cs_rsem)`, or about to read `cs_gotchar`. -/
inductive Getch where
  | out | proberen | read
  deriving DecidableEq, Repr

/-- The two waits of `lser_writepolled`: for the write that was in progress, with the
character still to be sent, and for its own. -/
inductive Polled where
  | spin (ch : Nat) | finish (irqpending : Bool)
  deriving DecidableEq, Repr

/-- The console, the driver and the device. `wirq` and `rirq` are the bit
`LSER_IRQ_ACTIVE` of the two interrupt registers, `char` is the character received last and
`sending` counts the characters the device has been given and is not done with. A thread
that calls both functions is one of the `putchers` and one of the `getchers`. -/
structure Console (ι κ : Type) where
  csRsem : Nat
  csWsem : Nat
  csGotchar : Nat
  lsWbusy : Bool
  wirq : Bool
  rirq : Bool
  char : Nat
  sending : Nat
  polled : Option Polled
  putchers : ι → Putch
  getchers : κ → Getch
  panicked : Bool
  -- history: the arguments of `putch`, the characters written to `LSER_REG_CHAR`, the
  -- arguments of `con_input` and the results of `getch`
  passed : List Nat
  sent : List Nat
  typed : List Nat
  returned : List Nat

namespace Console
variable {ι κ : Type}

/-- After `config_lser` and `config_con`. -/
def config : Console ι κ where
  csRsem := 0
  csWsem := 1
  csGotchar := 0
  lsWbusy := false
  wirq := false
  rirq := false
  char := 0
  sending := 0
  polled := none
  putchers := fun _ => .out
  getchers := fun _ => .out
  panicked := false
  passed := []
  sent := []
  typed := []
  returned := []

def conStart (s : Console ι κ) : Console ι κ := { s with csWsem := s.csWsem + 1 }

def conInput (ch : Nat) (s : Console ι κ) : Console ι κ :=
  { s with csGotchar := ch, csRsem := s.csRsem + 1, typed := s.typed ++ [ch] }

def writeChar (ch : Nat) (s : Console ι κ) : Console ι κ :=
  { s with sending := s.sending + 1, sent := s.sent ++ [ch] }

/-- The first half of `lser_irq`: read the interrupt registers and clear what they report. -/
def lserAck (s : Console ι κ) : Console ι κ :=
  { s with
    lsWbusy := if s.wirq then false else s.lsWbusy
    wirq := false
    rirq := false }

/-- `lser_irq`, with `con_start` and `con_input` attached. -/
def lserIrq (s : Console ι κ) : Console ι κ :=
  let started := if s.wirq then conStart (lserAck s) else lserAck s
  if s.rirq then conInput s.char started else started

section
variable (s : Console ι κ)

@[simp] theorem lserIrq_wirq : s.lserIrq.wirq = false := by
  simp only [lserIrq]; split <;> split <;> rfl

@[simp] theorem lserIrq_sending : s.lserIrq.sending = s.sending := by
  simp only [lserIrq]; split <;> split <;> rfl

@[simp] theorem lserIrq_polled : s.lserIrq.polled = s.polled := by
  simp only [lserIrq]; split <;> split <;> rfl

@[simp] theorem lserIrq_putchers : s.lserIrq.putchers = s.putchers := by
  simp only [lserIrq]; split <;> split <;> rfl

@[simp] theorem lserIrq_passed : s.lserIrq.passed = s.passed := by
  simp only [lserIrq]; split <;> split <;> rfl

end

def lserWrite (ch : Nat) (s : Console ι κ) : Console ι κ :=
  if s.lsWbusy then { s with panicked := true }
  else writeChar ch { s with lsWbusy := true }

/-- `lser_writepolled` up to its first wait. -/
def lserWritepolled (ch : Nat) (s : Console ι κ) : Console ι κ :=
  if s.lsWbusy then { s with polled := some (.spin ch) }
  else { writeChar ch s with polled := some (.finish false) }

variable [DecidableEq ι] [DecidableEq κ]

def setPutch (s : Console ι κ) (i : ι) (pc : Putch) : Console ι κ :=
  { s with putchers := update s.putchers i pc }

def setGetch (s : Console ι κ) (k : κ) (pc : Getch) : Console ι κ :=
  { s with getchers := update s.getchers k pc }

/-- One step of a caller, of the interrupt handler, of the polled writer or of the device. -/
inductive Step : Console ι κ → Console ι κ → Prop where
  | putch {s} (i : ι) (ch : Nat) : s.polled = none → s.putchers i = .out →
      Step s { s.setPutch i (.proberen ch) with passed := s.passed ++ [ch] }
  | putchClear {s} (i : ι) (ch : Nat) : s.polled = none → s.putchers i = .proberen ch →
      0 < s.csWsem → Step s { s.setPutch i (.clear ch) with csWsem := s.csWsem - 1 }
  | putchSend {s} (i : ι) (ch : Nat) : s.polled = none → s.putchers i = .clear ch →
      Step s (lserWrite ch (s.setPutch i .out))
  | putchPolled {s} (ch : Nat) : s.polled = none →
      Step s (lserWritepolled ch { s with passed := s.passed ++ [ch] })
  /-- The write that was in progress is done: clear the condition and send. -/
  | polledSend {s} (ch : Nat) : s.polled = some (.spin ch) → s.wirq = true →
      Step s { writeChar ch { s with wirq := false } with polled := some (.finish true) }
  | polledDone {s} (irqpending : Bool) : s.polled = some (.finish irqpending) → s.wirq = true →
      Step s { s with wirq := irqpending, polled := none }
  | irq {s} : s.polled = none → Step s s.lserIrq
  | writeDone {s} : 0 < s.sending → Step s { s with sending := s.sending - 1, wirq := true }
  | receive {s} (ch : Nat) : Step s { s with rirq := true, char := ch }
  | getch {s} (k : κ) : s.polled = none → s.getchers k = .out → Step s (s.setGetch k .proberen)
  | getchCount {s} (k : κ) : s.polled = none → s.getchers k = .proberen → 0 < s.csRsem →
      Step s { s.setGetch k .read with csRsem := s.csRsem - 1 }
  | getchRead {s} (k : κ) : s.polled = none → s.getchers k = .read →
      Step s { s.setGetch k .out with returned := s.returned ++ [s.csGotchar] }

/-! Output -/

end Console

def Putch.cleared : Putch → Nat
  | .clear _ => 1
  | _ => 0

def Putch.carries (ch : Nat) : Putch → Nat
  | .out => 0
  | .proberen c | .clear c => if c = ch then 1 else 0

def Putch.work : Putch → Nat
  | .out => 0
  | .proberen _ => 2
  | .clear _ => 1

def Polled.work : Option Polled → Nat
  | none => 0
  | some (.spin _) => 5
  | some (.finish _) => 2

def Polled.carries (ch : Nat) : Option Polled → Nat
  | some (.spin c) => if c = ch then 1 else 0
  | _ => 0

namespace Console
variable {ι κ : Type}

def engaged (s : Console ι κ) : Nat :=
  match s.polled with
  | some (.finish _) => 1
  | _ => s.lsWbusy.toNat

def PolledOk (s : Console ι κ) : Prop :=
  match s.polled with
  | none => True
  | some (.spin _) => s.lsWbusy = true
  | some (.finish irqpending) => irqpending = s.lsWbusy

variable {s : Console ι κ}

theorem engaged_of_none (off : s.polled = none) :
    s.engaged = s.lsWbusy.toNat := by
  rw [engaged,off]

variable [Fintype ι]

structure Clear (s : Console ι κ) : Prop where
  one : s.csWsem + Crowd.total Putch.cleared s.putchers + s.lsWbusy.toNat = 1
  device : s.sending + s.wirq.toNat = s.engaged
  polled : s.PolledOk
  sent : ∀ ch, s.passed.count ch =
    s.sent.count ch + Crowd.total (Putch.carries ch) s.putchers + Polled.carries ch s.polled
  calm : s.panicked = false

theorem clear_config : (config : Console ι κ).Clear where
  one := by simp [config,Crowd.total,Putch.cleared]
  device := by simp [config,engaged]
  polled := by simp [config,PolledOk]
  sent := by simp [config,Crowd.total,Putch.carries,Polled.carries]
  calm := rfl

theorem Clear.irq (clear : s.Clear) (off : s.polled = none) :
    s.lserIrq.Clear := by
  have device := clear.device
  rw [engaged_of_none off] at device
  have one := clear.one
  have acked : (if s.wirq then conStart (lserAck s) else lserAck s).Clear := by
    cases raised : s.wirq with
    | false =>
      simp only [raised,Bool.toNat_false] at device
      refine ⟨?_,?_,?_,clear.sent,clear.calm⟩
      · simpa [lserAck,raised] using one
      · simpa [lserAck,raised,engaged,off] using device
      · simp [PolledOk,lserAck,off]
    | true =>
      have busy : s.lsWbusy = true := by
        cases busy : s.lsWbusy with
        | true => rfl
        | false => simp [raised,busy] at device
      simp only [raised,busy,Bool.toNat_true] at device one
      refine ⟨?_,?_,?_,clear.sent,clear.calm⟩
      · simp only [conStart,lserAck,raised,if_true,Bool.toNat_false]
        omega
      · simp only [conStart,lserAck,raised,if_true,engaged,off,Bool.toNat_false]
        omega
      · simp [PolledOk,conStart,lserAck,off]
  simp only [lserIrq]
  cases s.rirq with
  | false => exact acked
  | true => exact ⟨acked.one,acked.device,acked.polled,acked.sent,acked.calm⟩

theorem Clear.putchPolled (clear : s.Clear) (off : s.polled = none) (ch : Nat) :
    (lserWritepolled ch { s with passed := s.passed ++ [ch] }).Clear := by
  have device := clear.device
  rw [engaged_of_none off] at device
  have sent := clear.sent
  simp only [off,Polled.carries] at sent
  by_cases busy : s.lsWbusy = true
  · rw [lserWritepolled,if_pos (show s.lsWbusy = true from busy)]
    refine ⟨clear.one,?_,?_,fun c => ?_,clear.calm⟩
    · rw [device]; rfl
    · simp [PolledOk,busy]
    · simp only [List.count_append,List.count_singleton,sent,Polled.carries,beq_iff_eq]
      omega
  · rw [lserWritepolled,if_neg (show ¬ s.lsWbusy = true from busy)]
    rw [Bool.not_eq_true] at busy
    rw [busy,Bool.toNat_false] at device
    refine ⟨clear.one,?_,?_,fun c => ?_,clear.calm⟩
    · simp only [writeChar,engaged]
      omega
    · simp [PolledOk,writeChar,busy]
    · simp only [writeChar,List.count_append,sent,Polled.carries]
      omega

variable {ch : Nat}

theorem Clear.polledSend (clear : s.Clear)
    (spinning : s.polled = some (.spin ch)) (raised : s.wirq = true) :
    ({ writeChar ch { s with wirq := false } with
        polled := some (.finish true) } : Console ι κ).Clear := by
  have polled := clear.polled
  have device := clear.device
  simp only [PolledOk,engaged,spinning,raised] at polled device
  refine ⟨clear.one,?_,?_,fun c => ?_,clear.calm⟩
  · simp only [polled,writeChar,engaged,Bool.toNat_true,Bool.toNat_false] at device ⊢
    omega
  · simp [PolledOk,writeChar,polled]
  · have sent := clear.sent c
    simp only [spinning,Polled.carries] at sent
    simp only [writeChar,List.count_append,List.count_singleton,beq_iff_eq,Polled.carries]
    omega

theorem Clear.polledDone (clear : s.Clear) {irqpending : Bool}
    (spinning : s.polled = some (.finish irqpending)) (raised : s.wirq = true) :
    ({ s with wirq := irqpending, polled := none } : Console ι κ).Clear := by
  have polled := clear.polled
  have device := clear.device
  simp only [PolledOk,engaged,spinning,raised,Bool.toNat_true] at polled device
  refine ⟨clear.one,?_,trivial,fun c => ?_,clear.calm⟩
  · simp only [engaged,polled]
    omega
  · simpa [spinning,Polled.carries] using clear.sent c

omit [Fintype ι] in
theorem engaged_le_one (s : Console ι κ) : s.engaged ≤ 1 := by
  have busy := s.lsWbusy.toNat_le
  simp only [engaged]
  split <;> omega

theorem Clear.writeDone (clear : s.Clear) (sending : 0 < s.sending) :
    ({ s with sending := s.sending - 1, wirq := true } : Console ι κ).Clear := by
  have device := clear.device
  have most := s.engaged_le_one
  refine ⟨clear.one,?_,clear.polled,clear.sent,clear.calm⟩
  change s.sending - 1 + 1 = s.engaged
  omega

variable {i : ι}

theorem Clear.idle_of_cleared (clear : s.Clear)
    (here : s.putchers i = .clear ch) : s.lsWbusy = false := by
  have one := clear.one
  have held := Crowd.weight_le_total Putch.cleared s.putchers i
  simp only [here,Putch.cleared] at held
  cases busy : s.lsWbusy with
  | false => rfl
  | true => simp only [busy,Bool.toNat_true] at one; omega

def Idle (s : Console ι κ) : Prop := s.polled = none ∧ ∀ i, s.putchers i = .out

theorem Clear.sent_perm (clear : s.Clear) (idle : s.Idle) :
    s.sent.Perm s.passed := by
  rw [List.perm_iff_count]
  intro ch
  have none : Crowd.total (Putch.carries ch) s.putchers = 0 :=
    Crowd.total_eq_zero.mpr fun i => by rw [idle.2 i]; rfl
  have sent := clear.sent ch
  rw [none,idle.1] at sent
  simpa [Polled.carries] using sent.symm

variable [DecidableEq ι]

theorem Clear.lserWrite_eq (clear : s.Clear)
    (here : s.putchers i = .clear ch) : lserWrite ch (s.setPutch i .out) =
      writeChar ch { s.setPutch i .out with lsWbusy := true } := by
  simp [lserWrite,setPutch,clear.idle_of_cleared here]

theorem Clear.putchSend (clear : s.Clear)
    (off : s.polled = none) (here : s.putchers i = .clear ch) :
    (lserWrite ch (s.setPutch i .out)).Clear := by
  have cleared := Crowd.total_update Putch.cleared s.putchers i .out
  have one := clear.one
  have device := clear.device
  simp only [here,Putch.cleared] at cleared
  rw [engaged_of_none off] at device
  simp only [clear.idle_of_cleared here,Bool.toNat_false] at one device
  rw [clear.lserWrite_eq here]
  refine ⟨?_,?_,?_,fun c => ?_,clear.calm⟩
  · simp only [writeChar,setPutch,Bool.toNat_true]
    omega
  · simp only [writeChar,setPutch,engaged,off,Bool.toNat_true]
    omega
  · simp [PolledOk,writeChar,setPutch,off]
  · have carried := Crowd.total_update (Putch.carries c) s.putchers i .out
    have sent := clear.sent c
    simp only [here,Putch.carries] at carried
    simp only [writeChar,setPutch,List.count_append,List.count_singleton,beq_iff_eq]
    omega

theorem Clear.movePutch (clear : s.Clear) (i : ι) (next : Putch) {csWsem : Nat}
    {passed : List Nat} (count : csWsem + next.cleared = s.csWsem + (s.putchers i).cleared)
    (carried : ∀ c, passed.count c + (s.putchers i).carries c = s.passed.count c + next.carries c) :
    ({ s.setPutch i next with csWsem := csWsem, passed := passed } : Console ι κ).Clear := by
  have cleared := Crowd.total_update Putch.cleared s.putchers i next
  have one := clear.one
  refine ⟨?_,clear.device,clear.polled,fun c => ?_,clear.calm⟩
  · simp only [setPutch]
    omega
  · have carries := Crowd.total_update (Putch.carries c) s.putchers i next
    have sent := clear.sent c
    have same := carried c
    simp only [setPutch]
    omega

variable [DecidableEq κ]

theorem Clear.step {t : Console ι κ} (clear : s.Clear) (step : Step s t) : t.Clear := by
  cases step with
  | putch i ch off here =>
    refine clear.movePutch i (.proberen ch) (by rw [here]; rfl) fun c => ?_
    simp only [here,Putch.carries,List.count_append,List.count_singleton,beq_iff_eq]
    omega
  | putchClear i ch off here free =>
    refine clear.movePutch i (.clear ch) ?_ fun c => by rw [here]; rfl
    rw [here]
    exact Nat.sub_add_cancel free
  | putchSend i ch off here => exact clear.putchSend off here
  | putchPolled ch off => exact clear.putchPolled off ch
  | polledSend ch spinning raised => exact clear.polledSend spinning raised
  | polledDone irqpending spinning raised => exact clear.polledDone spinning raised
  | irq off => exact clear.irq off
  | writeDone sending => exact clear.writeDone sending
  | receive ch => exact ⟨clear.one,clear.device,clear.polled,clear.sent,clear.calm⟩
  | getch k off here => exact ⟨clear.one,clear.device,clear.polled,clear.sent,clear.calm⟩
  | getchCount k off here free => exact ⟨clear.one,clear.device,clear.polled,clear.sent,clear.calm⟩
  | getchRead k off here => exact ⟨clear.one,clear.device,clear.polled,clear.sent,clear.calm⟩

def work (s : Console ι κ) : Nat :=
  10 * Crowd.total Putch.work s.putchers + Polled.work s.polled + 2 * s.sending + s.wirq.toNat

theorem Clear.writeDone_work (clear : s.Clear) (quiet : s.wirq = false)
    (engaged : s.engaged = 1) :
    ∃ t, Step s t ∧ t.passed = s.passed ∧ t.work < s.work := by
  have device := clear.device
  rw [quiet,engaged,Bool.toNat_false,Nat.add_zero] at device
  refine ⟨_,.writeDone (by omega),rfl,?_⟩
  simp only [work,quiet,Bool.toNat_true,Bool.toNat_false]
  omega

theorem Clear.polled_work (clear : s.Clear) {polled : Polled}
    (on : s.polled = some polled) : ∃ t, Step s t ∧ t.passed = s.passed ∧ t.work < s.work := by
  have ok := clear.polled
  cases polled with
  | spin ch =>
    simp only [PolledOk,on] at ok
    by_cases raised : s.wirq = true
    · refine ⟨_,.polledSend ch on raised,rfl,?_⟩
      simp only [work,writeChar,on,raised,Polled.work,Bool.toNat_true,Bool.toNat_false]
      omega
    · exact clear.writeDone_work (by simpa using raised) (by simp [engaged,on,ok])
  | finish irqpending =>
    by_cases raised : s.wirq = true
    · refine ⟨_,.polledDone irqpending on raised,rfl,?_⟩
      have := irqpending.toNat_le
      simp only [work,on,raised,Polled.work,Bool.toNat_true]
      omega
    · exact clear.writeDone_work (by simpa using raised) (by simp [engaged,on])

theorem Clear.send_work (clear : s.Clear) (off : s.polled = none) (here : s.putchers i = .clear ch) :
    ∃ t, Step s t ∧ t.passed = s.passed ∧ t.work < s.work := by
  have left := Crowd.total_update Putch.work s.putchers i .out
  simp only [here,Putch.work] at left
  refine ⟨_,.putchSend i ch off here,?_,?_⟩
  · rw [clear.lserWrite_eq here]; rfl
  · rw [clear.lserWrite_eq here]
    simp only [setPutch,writeChar,work]
    omega

theorem Clear.onward (clear : s.Clear) (busy : ¬ s.Idle) :
    ∃ t, Step s t ∧ t.passed = s.passed ∧ t.work < s.work := by
  cases on : s.polled with
  | some polled => exact clear.polled_work on
  | none =>
    have waiting : ∃ i, s.putchers i ≠ .out := by
      by_contra none
      exact busy ⟨on,by simpa using none⟩
    obtain ⟨i,inside⟩ := waiting
    cases here : s.putchers i with
    | out => exact absurd here inside
    | clear ch => exact clear.send_work on here
    | proberen ch =>
      by_cases free : 0 < s.csWsem
      · have left := Crowd.total_update Putch.work s.putchers i (.clear ch)
        simp only [here,Putch.work] at left
        refine ⟨_,.putchClear i ch on here free,rfl,?_⟩
        simp only [work,setPutch]
        omega
      -- somebody else holds the count: another caller, or the driver until the interrupt
      · by_cases held : ∃ j c, s.putchers j = .clear c
        · obtain ⟨j,c,there⟩ := held
          exact clear.send_work on there
        · have unheld : Crowd.total Putch.cleared s.putchers = 0 :=
            Crowd.total_eq_zero.mpr fun j => by
              cases there : s.putchers j with
              | clear c => exact absurd ⟨j,c,there⟩ held
              | out => rfl
              | proberen c => rfl
          have one := clear.one
          have device := clear.device
          rw [engaged_of_none on] at device
          by_cases raised : s.wirq = true
          · exact ⟨_,.irq on,s.lserIrq_passed,by simp [work,raised]⟩
          · exact clear.writeDone_work (by simpa using raised)
              (by rw [engaged_of_none on]; omega)

theorem Clear.finish (clear : s.Clear) :
    ∃ t, Relation.ReflTransGen Step s t ∧ (t.Clear ∧ t.passed = s.passed) ∧ t.Idle := by
  refine Run.descend work (fun u kept busy => ?_) ⟨clear,rfl⟩
  obtain ⟨t,step,same,less⟩ := kept.1.onward busy
  exact ⟨t,.single step,⟨kept.1.step step,same.trans kept.2⟩,less⟩

/-- In every reachable state the count of `cs_wsem`, the callers between `P(cs_wsem)` and
`lser_write` and the busy flag add up to one, `lser_write` has not panicked, and every
character passed to `putch` has been sent once or is carried by a call in progress; and all
calls in progress can still end, with every character sent exactly once. -/
theorem putch_clear_to_write {s : Console ι κ}
    (run : Relation.ReflTransGen Step (config : Console ι κ) s) :
    s.csWsem + Crowd.total Putch.cleared s.putchers + s.lsWbusy.toNat = 1 ∧
      s.panicked = false ∧
      (∀ ch, s.passed.count ch = s.sent.count ch +
        Crowd.total (Putch.carries ch) s.putchers + Polled.carries ch s.polled) ∧
      ∃ t, Relation.ReflTransGen Step s t ∧ t.passed = s.passed ∧ t.Idle ∧
        t.sent.Perm s.passed := by
  have clear : s.Clear := Run.keeps (fun _ _ kept step => kept.step step) run clear_config
  obtain ⟨t,onward,⟨clear',same⟩,idle⟩ := clear.finish
  exact ⟨clear.one,clear.calm,clear.sent,t,onward,same,idle,same ▸ clear'.sent_perm idle⟩

/-- A caller holds the count while another character is sent by polling. -/
theorem putch_clear_to_write_polled :
    ∃ s : Console (Fin 2) (Fin 1), s.putchers 0 = .clear 97 ∧ s.sent = [98] ∧
      s.csWsem + Crowd.total Putch.cleared s.putchers + s.lsWbusy.toNat = 1 := by
  have first := Step.putch (s := (config : Console (Fin 2) (Fin 1))) 0 97 rfl rfl
  have second := Step.putchClear 0 97 rfl rfl Nat.one_pos |> Relation.ReflTransGen.tail (.single first)
  exact ⟨_,rfl,rfl,(putch_clear_to_write (second.tail (.putchPolled 98 rfl))).1⟩

end Console

/-! Input -/

def Getch.counted : Getch → Nat
  | .read => 1
  | _ => 0

namespace Console
variable {ι κ : Type} [Fintype κ]

def pending (s : Console ι κ) : Nat := s.csRsem + Crowd.total Getch.counted s.getchers

/-- The receive interrupt is about to replace a character that a reader has still to get
by a different one. -/
def Overrun (s : Console ι κ) : Prop := s.rirq = true ∧ 0 < s.pending ∧ s.char ≠ s.csGotchar

/-- What has been typed is what has been returned and then the pending characters, all
equal to the one in `cs_gotchar`. -/
def Delivered (s : Console ι κ) : Prop :=
  s.typed = s.returned ++ List.replicate s.pending s.csGotchar

variable {s : Console ι κ}

theorem Delivered.sublist (delivered : s.Delivered) :
    s.returned.Sublist s.typed := by
  rw [delivered]
  exact List.sublist_append_left _ _

omit [Fintype κ] in
theorem lserIrq_input (s : Console ι κ) :
    s.lserIrq.returned = s.returned ∧ s.lserIrq.getchers = s.getchers ∧
      s.lserIrq.typed = (if s.rirq then s.typed ++ [s.char] else s.typed) ∧
      s.lserIrq.csRsem = (if s.rirq then s.csRsem + 1 else s.csRsem) ∧
      s.lserIrq.csGotchar = if s.rirq then s.char else s.csGotchar := by
  simp only [lserIrq]
  split <;> split <;> exact ⟨rfl,rfl,rfl,rfl,rfl⟩

theorem Delivered.irq (delivered : s.Delivered) (careful : ¬ s.Overrun) :
    s.lserIrq.Delivered := by
  obtain ⟨returned,getchers,typed,rsem,gotchar⟩ := s.lserIrq_input
  unfold Delivered pending at *
  rw [returned,getchers,typed,rsem,gotchar,delivered]
  cases received : s.rirq with
  | false => rfl
  | true =>
    simp only [if_true,List.append_assoc,List.append_cancel_left_eq]
    have same : List.replicate (s.csRsem + Crowd.total Getch.counted s.getchers) s.csGotchar =
        List.replicate (s.csRsem + Crowd.total Getch.counted s.getchers) s.char := by
      by_cases none : s.csRsem + Crowd.total Getch.counted s.getchers = 0
      · simp [none]
      · by_contra differ
        refine careful ⟨received,Nat.pos_of_ne_zero none,fun equal => differ ?_⟩
        rw [equal]
    rw [same,← List.replicate_succ']
    congr 1
    omega

variable [DecidableEq ι] [DecidableEq κ]

/-- A step that calls `con_input`, if it does, only with the reader's character fetched. -/
def Careful (s t : Console ι κ) : Prop := Step s t ∧ (t.typed ≠ s.typed → ¬ s.Overrun)

theorem Delivered.step {t : Console ι κ} (delivered : s.Delivered) (step : Careful s t) :
    t.Delivered := by
  obtain ⟨step,careful⟩ := step
  cases step with
  | irq off =>
    by_cases overrun : s.Overrun
    · refine absurd overrun (careful ?_)
      rw [s.lserIrq_input.2.2.1,if_pos overrun.1]
      simp
    · exact delivered.irq overrun
  | putchSend i ch off here =>
    unfold lserWrite
    split <;> exact delivered
  | putchPolled ch off =>
    unfold lserWritepolled
    split <;> exact delivered
  | getch k off here =>
    have counted := Crowd.total_update Getch.counted s.getchers k .proberen
    simp only [here,Getch.counted,Nat.add_zero] at counted
    simpa [Delivered,pending,setGetch,counted] using delivered
  | getchCount k off here free =>
    have counted := Crowd.total_update Getch.counted s.getchers k .read
    simp only [here,Getch.counted,Nat.add_zero] at counted
    have same : s.csRsem - 1 + (Crowd.total Getch.counted s.getchers + 1) = s.pending := by
      unfold pending
      omega
    simpa [Delivered,pending,setGetch,counted,same] using delivered
  | getchRead k off here =>
    have counted := Crowd.total_update Getch.counted s.getchers k .out
    simp only [here,Getch.counted,Nat.add_zero] at counted
    have fewer : s.pending = s.csRsem + Crowd.total Getch.counted
        (update s.getchers k .out) + 1 := by
      unfold pending
      omega
    change s.typed = s.returned ++ [s.csGotchar] ++ List.replicate (s.csRsem +
      Crowd.total Getch.counted (update s.getchers k .out)) s.csGotchar
    rw [delivered,fewer,List.replicate_succ,List.append_assoc,List.singleton_append]
  | _ => exact delivered

structure OneRead (s t : Console ι κ) : Prop where
  run : Relation.ReflTransGen Careful s t
  off : t.polled = none
  typed : t.typed = s.typed
  gotchar : t.csGotchar = s.csGotchar
  fewer : t.pending + 1 = s.pending
  returned : t.returned = s.returned ++ [s.csGotchar]

theorem read_counted (off : s.polled = none) {k : κ}
    (here : s.getchers k = .read) : ∃ t, OneRead s t := by
  have counted := Crowd.total_update Getch.counted s.getchers k .out
  simp only [here,Getch.counted,Nat.add_zero] at counted
  refine ⟨_,.single ⟨.getchRead k off here,fun changed => absurd rfl changed⟩,off,rfl,rfl,?_,rfl⟩
  simp only [pending,setGetch]
  omega

theorem OneRead.after {u : Console ι κ} (step : Careful s u) (typed : u.typed = s.typed)
    (gotchar : u.csGotchar = s.csGotchar) (same : u.pending = s.pending)
    (returned : u.returned = s.returned) : (∃ t, OneRead u t) → ∃ t, OneRead s t := by
  rintro ⟨t,read⟩
  exact ⟨t,.head step read.run,read.off,read.typed.trans typed,read.gotchar.trans gotchar,
    read.fewer.trans same,by rw [read.returned,returned,gotchar]⟩

theorem read_waiting (off : s.polled = none) {k : κ}
    (here : s.getchers k = .proberen) (free : 0 < s.csRsem) : ∃ t, OneRead s t := by
  have counted := Crowd.total_update Getch.counted s.getchers k .read
  simp only [here,Getch.counted,Nat.add_zero] at counted
  refine OneRead.after ⟨.getchCount k off here free,fun changed => absurd rfl changed⟩ rfl rfl ?_ rfl
    (read_counted off (k := k) (by simp [setGetch]))
  simp only [pending,setGetch]
  omega

theorem read_one [Nonempty κ] (off : s.polled = none) (some : 0 < s.pending) :
    ∃ t, OneRead s t := by
  by_cases reading : ∃ k, s.getchers k = .read
  · obtain ⟨k,here⟩ := reading
    exact read_counted off here
  · have none : Crowd.total Getch.counted s.getchers = 0 := Crowd.total_eq_zero.mpr fun k => by
      cases here : s.getchers k with
      | read => exact absurd ⟨k,here⟩ reading
      | out => rfl
      | proberen => rfl
    have free : 0 < s.csRsem := by
      unfold pending at some
      omega
    obtain ⟨k⟩ := ‹Nonempty κ›
    cases here : s.getchers k with
    | read => exact absurd ⟨k,here⟩ reading
    | proberen => exact read_waiting off here free
    | out =>
      have counted := Crowd.total_update Getch.counted s.getchers k .proberen
      simp only [here,Getch.counted,Nat.add_zero] at counted
      refine OneRead.after ⟨.getch k off here,fun changed => absurd rfl changed⟩ rfl rfl ?_ rfl
        (read_waiting off (k := k) (by simp [setGetch]) free)
      simp [pending,setGetch,counted]

theorem read_all [Nonempty κ] (off : s.polled = none) :
    ∃ t, Relation.ReflTransGen Careful s t ∧ t.typed = s.typed ∧
      t.returned = s.returned ++ List.replicate s.pending s.csGotchar := by
  have all : ∃ t, Relation.ReflTransGen Careful s t ∧
      (t.polled = none ∧ t.typed = s.typed ∧ t.csGotchar = s.csGotchar ∧
        t.returned ++ List.replicate t.pending s.csGotchar =
          s.returned ++ List.replicate s.pending s.csGotchar) ∧ t.pending = 0 := by
    refine Run.descend pending (fun u kept left => ?_) ⟨off,rfl,rfl,rfl⟩
    obtain ⟨off',typed,gotchar,returned⟩ := kept
    obtain ⟨t,read⟩ := read_one off' (Nat.pos_of_ne_zero left)
    have fewer := read.fewer
    refine ⟨t,read.run,⟨read.off,read.typed.trans typed,read.gotchar.trans gotchar,?_⟩,by omega⟩
    rw [← returned,read.returned,gotchar,← fewer,List.replicate_succ,List.append_assoc,
      List.singleton_append]
  obtain ⟨t,run,⟨-,typed,-,returned⟩,none⟩ := all
  rw [none,List.replicate_zero,List.append_nil] at returned
  exact ⟨t,run,typed,returned⟩

/-- An overrun makes the readers return the new character once too often. -/
theorem Overrun.duplicates [Nonempty κ] (delivered : s.Delivered)
    (off : s.polled = none) (overrun : s.Overrun) :
    ∃ t, Relation.ReflTransGen Careful s.lserIrq t ∧ ¬ t.returned.Sublist t.typed := by
  obtain ⟨received,some,differ⟩ := overrun
  obtain ⟨returned,getchers,typed,rsem,gotchar⟩ := s.lserIrq_input
  obtain ⟨t,run,typed',returned'⟩ := read_all (s := s.lserIrq) (by simpa using off)
  refine ⟨t,run,fun sublist => differ ?_⟩
  have more : s.lserIrq.pending = s.pending + 1 := by
    simp only [pending,getchers,rsem,received,if_true]
    omega
  rw [returned',typed',returned,gotchar,typed,more,if_pos received,if_pos received,delivered] at sublist
  -- both lists have the same length, so they are equal
  have equal := sublist.eq_of_length (by simp)
  rw [List.append_assoc,List.append_cancel_left_eq,List.replicate_succ] at equal
  obtain ⟨n,count⟩ := Nat.exists_eq_succ_of_ne_zero (Nat.pos_iff_ne_zero.mp some)
  rw [count,Nat.succ_eq_add_one] at equal
  exact (List.cons.inj equal).1

omit [DecidableEq ι] [DecidableEq κ] in
theorem delivered_config : (config : Console ι κ).Delivered := by
  simp [Delivered,config,pending,Crowd.total,Getch.counted]

/-- As long as no `con_input` overruns a character, what `getch` has returned is a
subsequence of what was typed; and the next receive interrupt keeps that for whatever
follows exactly when it does not overrun one either. -/
theorem getch_subsequence_iff [Nonempty κ] {s : Console ι κ}
    (run : Relation.ReflTransGen Careful (config : Console ι κ) s) (off : s.polled = none) :
    s.returned.Sublist s.typed ∧
      ((∀ t, Relation.ReflTransGen Careful s.lserIrq t → t.returned.Sublist t.typed) ↔
        ¬ s.Overrun) := by
  have delivered : s.Delivered := Run.keeps (fun _ _ kept step => kept.step step) run delivered_config
  refine ⟨delivered.sublist,fun all overrun => ?_,fun careful t onward => ?_⟩
  · obtain ⟨t,onward,duplicated⟩ := overrun.duplicates delivered off
    exact duplicated (all t onward)
  · have kept : t.Delivered := Run.keeps (fun _ _ kept step => kept.step step) onward
      (delivered.irq careful)
    exact kept.sublist

def received : Console (Fin 1) (Fin 1) := { config with rirq := true, char := 97 }

theorem getch_subsequence_received : ¬ received.Overrun ∧
    ∀ t, Relation.ReflTransGen Careful received.lserIrq t → t.returned.Sublist t.typed := by
  have free : ¬ received.Overrun := fun overrun => absurd overrun.2.1 (by decide)
  have run : Relation.ReflTransGen Careful config received :=
    .single ⟨.receive 97,fun changed => absurd rfl changed⟩
  exact ⟨free,(getch_subsequence_iff run rfl).2.mpr free⟩

/-- Two characters arrive before the first is read: both readers get the second. -/
theorem getch_returns_twice : ∃ s : Console (Fin 1) (Fin 1),
    Relation.ReflTransGen Step config s ∧ s.typed = [97,98] ∧ s.returned = [98,98] ∧
      ¬ s.returned.Sublist s.typed := by
  have typed := Relation.ReflTransGen.single (Step.receive (s := (config : Console (Fin 1) (Fin 1))) 97)
    |>.tail (.irq rfl) |>.tail (.receive 98) |>.tail (.irq rfl)
  have read := typed.tail (.getch 0 rfl rfl) |>.tail (.getchCount 0 rfl rfl (by decide))
    |>.tail (.getchRead 0 rfl rfl) |>.tail (.getch 0 rfl rfl)
    |>.tail (.getchCount 0 rfl rfl (by decide)) |>.tail (.getchRead 0 rfl rfl)
  exact ⟨_,read,by decide,by decide,by decide⟩

end Console
end Os161
