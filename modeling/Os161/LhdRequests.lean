import Os161.Interleaving
import Os161.Lhd

/-! `lhd_io` for any number of threads on one disk, with the completions that `lhd_irq`
delivers. A thread gives up the CPU anywhere between two accesses to the semaphores, the
registers, the buffer and `lh_result`; the interrupt handler is one step. -/
namespace Os161

open Function

/-- The arguments and locals of one call of `lhd_io`. `source i` is the block that the
memory region holds for the `i`-th sector, and `got` are the blocks moved into it. -/
structure LhdCall where
  write : Bool
  sector : Nat
  len : Nat
  i : Nat
  source : Nat → Block
  got : List Block

namespace LhdCall

/-- The checks in front of the loop of `lhd_io`. -/
def enter (dBlocks : Nat) (uioOffset : Int) (uioResid : Nat) (write : Bool) (source : Nat → Block) :
    Except Errno LhdCall :=
  let sector := u32 (uioOffset.tdiv 512)
  let sectoff := u32 (uioOffset.tmod 512)
  let len := uioResid / 512
  let lenoff := uioResid % 512
  if sectoff ≠ 0 ∨ lenoff ≠ 0 then .error .einval
  else if (sector + len) % 2^32 > dBlocks then .error .einval
  else .ok ⟨write,sector,len,0,source,[]⟩

/-- The sector that the current turn of the loop asks for. -/
def target (x : LhdCall) : Nat := (x.sector + x.i) % 2^32

end LhdCall

/-- Where a thread is in `lhd_io`: outside; in `P(lh_clear)`; then, until `V(lh_clear)`, at
the transfer to the buffer, at the two register writes, in `P(lh_done)`, at the read of
`lh_result`, at the transfer from the buffer, and at `V(lh_clear)` itself. -/
inductive LhdPc where
  | out
  | clear (x : LhdCall)
  | move (x : LhdCall)
  | sect (x : LhdCall)
  | stat (x : LhdCall)
  | done (x : LhdCall)
  | result (x : LhdCall)
  | fetch (x : LhdCall) (result : Option Errno)
  | vacate (x : LhdCall) (result : Option Errno)

/-- The thread is between `P(lh_clear)` and `V(lh_clear)`. -/
def LhdPc.inside : LhdPc → Nat
  | .out | .clear _ => 0
  | _ => 1

def LhdPc.awaits : LhdPc → Nat
  | .done _ => 1
  | _ => 0

theorem LhdPc.awaits_le_inside (pc : LhdPc) : pc.awaits ≤ pc.inside := by
  cases pc <;> simp [awaits,inside]

theorem LhdPc.awaits_outside {pc : LhdPc} (outside : pc.inside = 0) : pc.awaits = 0 :=
  Nat.le_zero.mp (outside ▸ pc.awaits_le_inside)

structure LhdRequest (ι : Type) where
  thread : ι
  sector : Nat
  write : Bool

/-- The softc, the registers and the medium. `stat` is the completion that the status
register reports, `requests` are those started and not completed. `answer` is history: the
state in which the device completed the last request of each thread. -/
structure LhdCard (ι : Type) where
  lhClear : Nat
  lhDone : Nat
  lhResult : Option Errno
  lhBuf : Block
  sect : Nat
  stat : Option LhdState
  requests : List (LhdRequest ι)
  sectors : Nat → Block
  pc : ι → LhdPc
  answer : ι → Option LhdState

namespace LhdCard
variable {ι : Type}

def config (sectors : Nat → Block) (lhBuf : Block) : LhdCard ι where
  lhClear := 1
  lhDone := 0
  lhResult := none
  lhBuf := lhBuf
  sect := 0
  stat := none
  requests := []
  sectors := sectors
  pc := fun _ => .out
  answer := fun _ => none

def lhdIrq (s : LhdCard ι) : LhdCard ι :=
  match s.stat with
  | none => s
  | some state =>
    { s with stat := none, lhResult := Lhd.codeToErrno state, lhDone := s.lhDone + 1 }

variable [DecidableEq ι]

def setPc (s : LhdCard ι) (t : ι) (pc : LhdPc) : LhdCard ι :=
  { s with pc := update s.pc t pc }

/-- The device completes a request: a read that succeeds fills the buffer, one that fails
leaves `junk` in it, and a write that succeeds stores the buffer. -/
def complete (s : LhdCard ι) (r : LhdRequest ι) (rest : List (LhdRequest ι)) (state : LhdState)
    (junk : Block) : LhdCard ι :=
  { s with
    requests := rest
    stat := some state
    answer := update s.answer r.thread (some state)
    lhBuf := if r.write then s.lhBuf else if state = .ok then s.sectors r.sector else junk
    sectors := if r.write ∧ state = .ok then update s.sectors r.sector s.lhBuf
      else s.sectors }

/-- One step of a thread, of the device or of the interrupt handler, on a disk of
`dBlocks` sectors. -/
inductive Step (dBlocks : Nat) : LhdCard ι → LhdCard ι → Prop where
  | call {s} (t : ι) (offset : Int) (resid : Nat) (write : Bool) (source : Nat → Block)
      (x : LhdCall) : s.pc t = .out →
      LhdCall.enter dBlocks offset resid write source = .ok x → Step dBlocks s (s.setPc t (.clear x))
  | clear {s} (t : ι) (x : LhdCall) : s.pc t = .clear x → x.i < x.len → 0 < s.lhClear →
      Step dBlocks s { s.setPc t (.move x) with lhClear := s.lhClear - 1 }
  | returns {s} (t : ι) (x : LhdCall) : s.pc t = .clear x → x.len ≤ x.i →
      Step dBlocks s (s.setPc t .out)
  | moveRead {s} (t : ι) (x : LhdCall) : s.pc t = .move x → x.write = false →
      Step dBlocks s (s.setPc t (.sect x))
  | moveWrite {s} (t : ι) (x : LhdCall) : s.pc t = .move x → x.write = true →
      Step dBlocks s { s.setPc t (.sect x) with lhBuf := x.source x.i }
  /-- `uiomove` fails, possibly with part of the buffer overwritten. -/
  | moveFault {s} (t : ι) (x : LhdCall) (part : Block) (e : Errno) : s.pc t = .move x →
      x.write = true → Step dBlocks s { s.setPc t (.vacate x (some e)) with lhBuf := part }
  | sect {s} (t : ι) (x : LhdCall) : s.pc t = .sect x →
      Step dBlocks s { s.setPc t (.stat x) with sect := x.target }
  | stat {s} (t : ι) (x : LhdCall) : s.pc t = .stat x →
      Step dBlocks s { s.setPc t (.done x) with
        requests := s.requests ++ [⟨t,s.sect,x.write⟩]
        answer := update s.answer t none }
  | complete {s} (r : LhdRequest ι) (rest : List (LhdRequest ι)) (state : LhdState)
      (junk : Block) : s.requests = r :: rest → Step dBlocks s (s.complete r rest state junk)
  | irq {s} : Step dBlocks s s.lhdIrq
  | done {s} (t : ι) (x : LhdCall) : s.pc t = .done x → 0 < s.lhDone →
      Step dBlocks s { s.setPc t (.result x) with lhDone := s.lhDone - 1 }
  | result {s} (t : ι) (x : LhdCall) : s.pc t = .result x →
      Step dBlocks s (s.setPc t (.fetch x s.lhResult))
  | fetch {s} (t : ι) (x : LhdCall) : s.pc t = .fetch x none → x.write = false →
      Step dBlocks s (s.setPc t (.vacate { x with got := x.got ++ [s.lhBuf] } none))
  | fetchFault {s} (t : ι) (x : LhdCall) (e : Errno) : s.pc t = .fetch x none →
      x.write = false → Step dBlocks s (s.setPc t (.vacate x (some e)))
  | fetchSkip {s} (t : ι) (x : LhdCall) (result : Option Errno) : s.pc t = .fetch x result →
      (result ≠ none ∨ x.write = true) → Step dBlocks s (s.setPc t (.vacate x result))
  | vacate {s} (t : ι) (x : LhdCall) : s.pc t = .vacate x none →
      Step dBlocks s { s.setPc t (.clear { x with i := x.i + 1 }) with lhClear := s.lhClear + 1 }
  | fails {s} (t : ι) (x : LhdCall) (e : Errno) : s.pc t = .vacate x (some e) →
      Step dBlocks s { s.setPc t .out with lhClear := s.lhClear + 1 }

end LhdCard

/-! The invariant -/

namespace LhdCard
variable {ι : Type}

/-- The device has completed the request of thread `t` in this state, and on success the
sector it asked for and the data it moves agree. -/
def Answered (s : LhdCard ι) (t : ι) (x : LhdCall) (state : LhdState) : Prop :=
  s.answer t = some state ∧
    (state = .ok → (x.write = false → s.lhBuf = s.sectors x.target) ∧
      (x.write = true → s.sectors x.target = x.source x.i))

def Stage (s : LhdCard ι) (t : ι) : LhdPc → Prop
  | .out | .clear _ | .move _ | .vacate _ (some _) => True
  | .sect x => x.write = true → s.lhBuf = x.source x.i
  | .stat x => s.sect = x.target ∧ (x.write = true → s.lhBuf = x.source x.i)
  | .done x =>
    (∀ r ∈ s.requests, r = ⟨t,x.target,x.write⟩ ∧ (x.write = true → s.lhBuf = x.source x.i)) ∧
    (∀ state, s.stat = some state → s.Answered t x state) ∧
    (0 < s.lhDone → ∃ state, s.lhResult = Lhd.codeToErrno state ∧ s.Answered t x state)
  | .result x => ∃ state, s.lhResult = Lhd.codeToErrno state ∧ s.Answered t x state
  | .fetch x result => ∃ state, result = Lhd.codeToErrno state ∧ s.Answered t x state
  | .vacate x none =>
    (x.write = false → ∃ before, x.got = before ++ [s.sectors x.target]) ∧
      (x.write = true → s.sectors x.target = x.source x.i)

def completions (s : LhdCard ι) : Nat := s.lhDone + s.stat.isSome.toNat

variable [Fintype ι]

structure Orderly (s : LhdCard ι) : Prop where
  one : s.lhClear + Crowd.total LhdPc.inside s.pc = 1
  flow : s.completions + s.requests.length = Crowd.total LhdPc.awaits s.pc
  each : ∀ t, s.Stage t (s.pc t)

theorem orderly_config (sectors : Nat → Block) (lhBuf : Block) :
    (config sectors lhBuf : LhdCard ι).Orderly where
  one := by simp [config,Crowd.total,LhdPc.inside]
  flow := by simp [config,completions,Crowd.total,LhdPc.awaits]
  each _ := trivial

namespace Orderly
variable {s : LhdCard ι}
variable {t : ι} {pc : LhdPc}

omit [Fintype ι] in
theorem stage_outside (outside : pc.inside = 0) : s.Stage t pc := by
  cases pc <;> trivial

theorem alone (orderly : s.Orderly) {u : ι} (here : 0 < (s.pc t).inside) (apart : u ≠ t) :
    (s.pc u).inside = 0 := by
  have one := orderly.one
  by_contra inside
  exact apart (Crowd.eq_of_total_le_one (by omega) (Nat.pos_of_ne_zero inside) here)

theorem stage (orderly : s.Orderly) (here : s.pc t = pc) : s.Stage t pc :=
  here ▸ orderly.each t

theorem flow_alone (orderly : s.Orderly) (here : s.pc t = pc)
    (inside : pc.inside = 1) : s.completions + s.requests.length = pc.awaits := by
  have busy : 0 < (s.pc t).inside := by rw [here,inside]; exact Nat.one_pos
  rw [orderly.flow,← here]
  exact Crowd.total_eq_single fun u apart => LhdPc.awaits_outside (orderly.alone busy apart)

theorem taken (orderly : s.Orderly) (here : s.pc t = pc)
    (inside : pc.inside = 1) : s.lhClear = 0 ∧ ∀ u, u ≠ t → (s.pc u).inside = 0 := by
  have busy : (s.pc t).inside = 1 := here ▸ inside
  have held := Crowd.weight_le_total LhdPc.inside s.pc t
  have one := orderly.one
  exact ⟨by omega,fun u apart => orderly.alone (busy ▸ Nat.one_pos) apart⟩

theorem waiter (orderly : s.Orderly) (some : 0 < s.completions + s.requests.length) :
    ∃ t x, s.pc t = .done x := by
  rw [orderly.flow] at some
  obtain ⟨t,awaits⟩ := Crowd.exists_of_total_pos some
  cases pc : s.pc t <;> rw [pc] at awaits <;> first | exact ⟨t,_,pc⟩ | cases awaits

variable [DecidableEq ι]

theorem outside_step (orderly : s.Orderly) (here : (s.pc t).inside = 0)
    (there : pc.inside = 0) : (s.setPc t pc).Orderly := by
  have inside := Crowd.total_update LhdPc.inside s.pc t pc
  have awaits := Crowd.total_update LhdPc.awaits s.pc t pc
  have here' := LhdPc.awaits_outside here
  have there' := LhdPc.awaits_outside there
  have one := orderly.one
  have flow := orderly.flow
  refine ⟨?_,?_,(forall_update_iff s.pc fun u pc => s.Stage u pc).2
    ⟨stage_outside there,fun u _ => orderly.each u⟩⟩
  · simp only [setPc]
    omega
  · change s.completions + s.requests.length = Crowd.total LhdPc.awaits (update s.pc t pc)
    omega

theorem inside_step {s' : LhdCard ι}
    (others : ∀ u, u ≠ t → (s.pc u).inside = 0) (pcs : s'.pc = update s.pc t pc)
    (one : s'.lhClear + pc.inside = 1)
    (flow : s'.completions + s'.requests.length = pc.awaits) (stage : s'.Stage t pc) :
    s'.Orderly := by
  have others' : ∀ u, u ≠ t → (s'.pc u).inside = 0 := fun u apart => by
    rw [pcs,update_of_ne apart]
    exact others u apart
  have here : s'.pc t = pc := by rw [pcs,update_self]
  have awaits : ∀ u, u ≠ t → (s'.pc u).awaits = 0 := fun u apart =>
    LhdPc.awaits_outside (others' u apart)
  refine ⟨?_,?_,fun u => ?_⟩
  · rw [Crowd.total_eq_single others',here]
    exact one
  · rw [Crowd.total_eq_single awaits,here]
    exact flow
  · by_cases same : u = t
    · subst same
      rw [here]
      exact stage
    · exact stage_outside (others' u same)

theorem within {s' : LhdCard ι} (orderly : s.Orderly) {here : LhdPc}
    (at_ : s.pc t = here) (inside : here.inside = 1) (pcs : s'.pc = update s.pc t pc)
    (stays : pc.inside = 1) (clear : s'.lhClear = s.lhClear)
    (flow : s'.completions + s'.requests.length + here.awaits =
      s.completions + s.requests.length + pc.awaits)
    (stage : s'.Stage t pc) : s'.Orderly := by
  have before := orderly.flow_alone at_ inside
  obtain ⟨taken,others⟩ := orderly.taken at_ inside
  exact inside_step others pcs (by omega) (by omega) stage

theorem leave (orderly : s.Orderly) {x : LhdCall} {result : Option Errno}
    (at_ : s.pc t = .vacate x result) (outside : pc.inside = 0) :
    ({ s.setPc t pc with lhClear := s.lhClear + 1 } : LhdCard ι).Orderly := by
  obtain ⟨taken,others⟩ := orderly.taken at_ rfl
  refine inside_step others rfl ?_ ?_ (stage_outside outside)
  · simp only [taken,outside]
  · rw [LhdPc.awaits_outside outside]
    exact orderly.flow_alone at_ rfl

end Orderly

variable [DecidableEq ι]
variable {s : LhdCard ι}

theorem Orderly.complete (orderly : s.Orderly) {r : LhdRequest ι}
    {rest : List (LhdRequest ι)} (given : s.requests = r :: rest) (state : LhdState) (junk : Block) :
    (s.complete r rest state junk).Orderly := by
  obtain ⟨t,x,here⟩ := orderly.waiter (by rw [given,List.length_cons]; omega)
  have flow := orderly.flow_alone here rfl
  obtain ⟨clear,others⟩ := orderly.taken here rfl
  have stage := orderly.stage here
  rw [given,List.length_cons,LhdPc.awaits] at flow
  have none : rest = [] ∧ s.lhDone = 0 := by
    unfold completions at flow
    exact ⟨List.eq_nil_of_length_eq_zero (by omega),by omega⟩
  obtain ⟨mine,data⟩ := stage.1 r (by simp [given])
  subst mine
  have pcs : (s.complete ⟨t,x.target,x.write⟩ rest state junk).pc = update s.pc t (.done x) := by
    simp [LhdCard.complete,← here]
  refine Orderly.inside_step others pcs ?_ ?_ ?_
  · simp [LhdCard.complete,clear,LhdPc.inside]
  · simp [LhdCard.complete,completions,none,LhdPc.awaits]
  · refine ⟨by simp [LhdCard.complete,none],fun done reported => ?_,fun counted => ?_⟩
    · obtain rfl : state = done := by simpa [LhdCard.complete] using reported
      refine ⟨by simp [LhdCard.complete],fun ok => ⟨fun read => ?_,fun write => ?_⟩⟩
      · simp [LhdCard.complete,read,ok]
      · simp [LhdCard.complete,write,ok,data write]
    · simp only [LhdCard.complete,none] at counted
      exact absurd counted (Nat.lt_irrefl _)

theorem Orderly.irq (orderly : s.Orderly) : s.lhdIrq.Orderly := by
  cases reported : s.stat with
  | none => simpa [lhdIrq,reported] using orderly
  | some state =>
    have taken : s.lhdIrq = { s with
        stat := none, lhResult := Lhd.codeToErrno state, lhDone := s.lhDone + 1 } := by
      simp [lhdIrq,reported]
    have counted : s.completions = s.lhDone + 1 := by simp [completions,reported]
    obtain ⟨t,x,here⟩ := orderly.waiter (by omega)
    have flow := orderly.flow_alone here rfl
    obtain ⟨clear,others⟩ := orderly.taken here rfl
    have stage := orderly.stage here
    rw [counted] at flow
    have pcs : s.lhdIrq.pc = update s.pc t (.done x) := by
      simp [taken,← here]
    refine Orderly.inside_step others pcs ?_ ?_ ?_
    · simp [taken,clear,LhdPc.inside]
    · simpa [taken,completions,LhdPc.awaits] using flow
    · rw [taken]
      exact ⟨stage.1,fun other again => absurd again (by simp),
        fun _ => ⟨state,rfl,stage.2.1 state reported⟩⟩

theorem Orderly.enter (orderly : s.Orderly) (t : ι) (x : LhdCall)
    (free : 0 < s.lhClear) :
    ({ s.setPc t (.move x) with lhClear := s.lhClear - 1 } : LhdCard ι).Orderly := by
  have one := orderly.one
  have flow := orderly.flow
  have outside : ∀ u, (s.pc u).inside = 0 := Crowd.total_eq_zero.mp (by omega)
  have idle : Crowd.total LhdPc.awaits s.pc = 0 :=
    Crowd.total_eq_zero.mpr fun u => LhdPc.awaits_outside (outside u)
  refine Orderly.inside_step (fun u _ => outside u) rfl ?_ ?_ trivial
  · simp only [LhdPc.inside]
    omega
  · rw [idle] at flow
    exact flow

theorem Orderly.start (orderly : s.Orderly) {t : ι} {x : LhdCall}
    (here : s.pc t = .stat x) :
    ({ s.setPc t (.done x) with
        requests := s.requests ++ [⟨t,s.sect,x.write⟩]
        answer := update s.answer t none } : LhdCard ι).Orderly := by
  have stage := orderly.stage here
  have flow := orderly.flow_alone here rfl
  simp only [LhdPc.awaits,Nat.add_eq_zero_iff,List.length_eq_zero_iff] at flow
  obtain ⟨quiet,none⟩ := flow
  obtain ⟨uncounted,unreported⟩ := Nat.add_eq_zero_iff.1 quiet
  refine orderly.within here rfl rfl rfl rfl ?_ ⟨fun r member => ?_,fun state reported => ?_,
    fun counted => ?_⟩
  · simp only [List.length_append,List.length_singleton,LhdPc.awaits]
    rfl
  · simp only [none,List.nil_append,List.mem_singleton] at member
    rw [member]
    exact ⟨by rw [stage.1],stage.2⟩
  · rw [show s.stat = some state from reported] at unreported
    exact absurd unreported Nat.one_ne_zero
  · exact absurd uncounted (Nat.ne_of_gt counted)

theorem codeToErrno_eq_none {state : LhdState} : Lhd.codeToErrno state = none ↔ state = .ok := by
  cases state <;> simp [Lhd.codeToErrno]

theorem Orderly.step {dBlocks : Nat} {s' : LhdCard ι} (orderly : s.Orderly)
    (step : Step dBlocks s s') : s'.Orderly := by
  cases step with
  | call t offset resid write source x here checked =>
    exact orderly.outside_step (by rw [here]; rfl) rfl
  | returns t x here all => exact orderly.outside_step (by rw [here]; rfl) rfl
  | clear t x here more free => exact orderly.enter t x free
  | moveRead t x here read =>
    exact orderly.within here rfl rfl rfl rfl rfl fun write => absurd write (by simp [read])
  | moveWrite t x here write => exact orderly.within here rfl rfl rfl rfl rfl fun _ => rfl
  | moveFault t x part e here write => exact orderly.within here rfl rfl rfl rfl rfl trivial
  | sect t x here =>
    exact orderly.within here rfl rfl rfl rfl rfl ⟨rfl,orderly.stage here⟩
  | stat t x here => exact orderly.start here
  | complete r rest state junk given => exact orderly.complete given state junk
  | irq => exact orderly.irq
  | done t x here counted =>
    refine orderly.within here rfl rfl rfl rfl ?_ ((orderly.stage here).2.2 counted)
    simp only [completions,setPc,LhdPc.awaits]
    omega
  | result t x here =>
    exact orderly.within here rfl rfl rfl rfl rfl (orderly.stage here)
  | fetch t x here read =>
    obtain ⟨state,ok,answer,agree⟩ := orderly.stage here
    have buffer := (agree (codeToErrno_eq_none.mp ok.symm)).1 read
    refine orderly.within here rfl rfl rfl rfl rfl ⟨fun _ => ⟨x.got,?_⟩,fun write => ?_⟩
    · rw [buffer]; rfl
    · exact absurd write (by simp [read])
  | fetchFault t x e here read => exact orderly.within here rfl rfl rfl rfl rfl trivial
  | fetchSkip t x result here skip =>
    obtain ⟨state,code,answer,agree⟩ := orderly.stage here
    cases result with
    | some e => exact orderly.within here rfl rfl rfl rfl rfl trivial
    | none =>
      have write : x.write = true := skip.resolve_left fun failed => failed rfl
      refine orderly.within here rfl rfl rfl rfl rfl ⟨fun read => ?_,
        (agree (codeToErrno_eq_none.mp code.symm)).2⟩
      exact absurd read (by simp [write])
  | vacate t x here => exact orderly.leave here rfl
  | fails t x e here => exact orderly.leave here rfl

/-- In every reachable state at most one request is outstanding, the count of `lh_clear`
and the threads between `P(lh_clear)` and `V(lh_clear)` add up to one, `lh_done` counts at
most one completion and none while that section is empty, and the `lh_result` that a thread
is about to read is what the device answered to its own request. So the buffer from which a
read is served, and the block that the caller gets, is the sector it asked for. -/
theorem lhd_requests_paired {dBlocks : Nat} {sectors : Nat → Block} {lhBuf : Block} {s : LhdCard ι}
    (run : Relation.ReflTransGen (Step dBlocks) (config sectors lhBuf) s) :
    s.requests.length ≤ 1 ∧
      s.lhClear + Crowd.total LhdPc.inside s.pc = 1 ∧
      s.lhDone ≤ 1 ∧ (Crowd.total LhdPc.inside s.pc = 0 → s.lhDone = 0) ∧
      (∀ t x, s.pc t = .result x →
        ∃ state, s.answer t = some state ∧ s.lhResult = Lhd.codeToErrno state) ∧
      (∀ t x, s.pc t = .fetch x none → x.write = false → s.lhBuf = s.sectors x.target) ∧
      ∀ t x, s.pc t = .vacate x none → x.write = false →
        ∃ before, x.got = before ++ [s.sectors x.target] := by
  have orderly : s.Orderly :=
    Run.keeps (fun _ _ kept step => kept.step step) run (orderly_config sectors lhBuf)
  have one := orderly.one
  have flow := orderly.flow
  have fewer := Crowd.total_mono s.pc LhdPc.awaits_le_inside
  unfold completions at flow
  refine ⟨by omega,one,by omega,fun empty => by omega,fun t x here => ?_,fun t x here read => ?_,
    fun t x here read => ?_⟩
  · obtain ⟨state,result,answer,-⟩ := orderly.stage here
    exact ⟨state,answer,result⟩
  · obtain ⟨state,ok,-,agree⟩ := orderly.stage here
    exact (agree (codeToErrno_eq_none.mp ok.symm)).1 read
  · exact (orderly.stage here).1 read

/-- A read of sector 0 by the first of two threads, up to its result. -/
theorem lhd_requests_paired_read : ∃ (s : LhdCard (Fin 2)) (x : LhdCall), s.pc 0 = .result x ∧
    ∃ state, s.answer 0 = some state ∧ s.lhResult = Lhd.codeToErrno state := by
  have entered : LhdCall.enter 8 0 512 false (fun _ => Block.zero) =
      .ok ⟨false,0,1,0,fun _ => Block.zero,[]⟩ := by simp [LhdCall.enter,u32]
  have called := Relation.ReflTransGen.single (Step.call
    (s := (config (fun _ => Block.zero) Block.zero : LhdCard (Fin 2))) 0 0 512 false
      (fun _ => Block.zero) _ rfl entered)
  have started := called.tail (.clear 0 _ rfl Nat.one_pos Nat.one_pos) |>.tail (.moveRead 0 _ rfl rfl)
    |>.tail (.sect 0 _ rfl) |>.tail (.stat 0 _ rfl)
  have finished := started.tail (.complete _ _ .ok Block.zero rfl) |>.tail .irq
    |>.tail (.done 0 _ rfl Nat.one_pos)
  exact ⟨_,_,rfl,(lhd_requests_paired finished).2.2.2.2.1 0 _ rfl⟩

end LhdCard
end Os161
