import Os161.Simulation
import Os161.Uio

/-! How much `uiomove` moves. Each turn of its loop is bounded by `n` and by the length of the iovec;
the residue is only tested before the turn. -/
namespace Os161
namespace Uio

def Faults (u : Uio) (size : Nat) : Prop := u.uioSegflg ≠ .sysspace ∧ u.reach size < size

instance (u : Uio) (size : Nat) : Decidable (u.Faults size) := inferInstanceAs (Decidable (_ ∧ _))

theorem faults_iff {u : Uio} {size : Nat} : u.Faults size ↔ ¬u.Open size := by
  rw [not_open_iff]
  unfold Faults
  split <;> simp_all

def turnSize (u : Uio) (n : Nat) : Nat := if u.iovLen > n then n else u.iovLen

theorem moveLoop_last {u : Uio} {n : Nat} (last : n = 0 ∨ u.iovLen = 0) (turns pos : Nat)
    (buf : Nat → UInt8) :
    (moveLoop turns n pos buf).wp u (fun buf' t => buf' = buf ∧ t = u) never
      (fun _ t => t = u) := by
  cases turns with
  | zero => exact ⟨rfl,rfl⟩
  | succ turns =>
    rw [moveLoop,wp_bind,wp_read,wp_ite]
    refine ⟨fun more => ?_,fun _ => ⟨rfl,rfl⟩⟩
    have full : u.iovLen = 0 := last.resolve_left (by omega)
    simp [full]

section Turn
variable {u : Uio} {n turns : Nat} {buf : Nat → UInt8} (some_ : 0 < n) (resid : 0 < u.uioResid)
  (len : 0 < u.iovLen)
include some_ resid len

theorem wp_moveLoop {ok : (Nat → UInt8) → Uio → Prop} {err : Errno → Uio → Prop} {halt : Panic → Uio → Prop} :
    (moveLoop (turns + 1) n 0 buf).wp u ok err halt ↔
      (copy buf 0 (u.turnSize n)).wp u
        (fun buf' t => (moveLoop turns (n - u.turnSize n) (0 + u.turnSize n) buf').wp
          (t.advance (u.turnSize n)) ok err halt) err halt := by
  have positive : u.turnSize n ≠ 0 := by
    unfold turnSize
    split <;> omega
  rw [moveLoop,wp_bind,wp_read,if_pos ⟨some_,resid⟩]
  simp only [← turnSize.eq_1,wp_bind,wp_assert,wp_modify]
  rw [if_pos (decide_eq_true positive)]

theorem moveLoop_ends :
    (moveLoop (turns + 1) n 0 buf).wp u
      (fun buf' t => ¬u.Faults (u.turnSize n) ∧ t = u.moved buf (u.turnSize n) ∧
        buf' = u.filled buf (u.turnSize n))
      (fun e t => e = .efault ∧ u.Faults (u.turnSize n) ∧ u.SameCursor t)
      (fun _ t => ¬u.Faults (u.turnSize n) ∧ t = u.moved buf (u.turnSize n)) := by
  rw [wp_moveLoop some_ resid len,faults_iff,not_not]
  apply wp_safe (copy_spec u buf _)
  · rintro buf' t ⟨open_,moved_,rfl⟩
    have last : n - u.turnSize n = 0 ∨ (u.moved buf (u.turnSize n)).iovLen = 0 := by
      rw [moved_iovLen]
      unfold turnSize
      split <;> omega
    rw [moved_]
    apply wp_sure (moveLoop_last last turns _ _)
    · exact fun _ _ ended => ⟨open_,ended.2,ended.1⟩
    · exact fun _ _ ended => ⟨open_,ended⟩
  · exact fun _ _ h => h

end Turn

/-- The call stops before it has moved anything: at the assertion or in the copy. -/
def Stops (u : Uio) (n : Nat) : Prop := u.spaceOk = false ∨ u.Faults (u.turnSize n)

/-- The requests for which the residue need not be looked at. -/
def Covered (u : Uio) (n : Nat) : Prop := n ≤ u.uioResid ∨ u.uioResid = u.iovLen ∨ u.uioResid = 0

def amount (u : Uio) (n : Nat) : Nat := if u.uioResid = 0 then 0 else u.turnSize n

structure Transferred (u : Uio) (buf : Nat → UInt8) (m : Nat) (buf' : Nat → UInt8) (t : Uio) : Prop where
  base : t.iovBase = u.iovBase + m
  len : t.iovLen + m = u.iovLen
  resid : t.uioResid + m = u.uioResid
  offset : t.uioOffset = i32 (u.uioOffset + m)
  read : u.uioRw = .read → buf' = buf ∧ t.mem = overwrite u.mem u.iovBase buf m
  write : u.uioRw = .write → t.mem = u.mem ∧ buf' = overwrite buf 0 (fun i => u.mem (u.iovBase + i)) m

/-- A call that returns has moved as much as it should, and however it ends the iovec has not been
advanced by more than the residue. -/
def MovesExactly (u : Uio) (buf : Nat → UInt8) (n : Nat) : Prop :=
  (uiomove buf n).wp u (u.Transferred buf (min n u.uioResid))
    (fun _ t => t.iovBase ≤ u.iovBase + u.uioResid) (fun _ t => t.iovBase ≤ u.iovBase + u.uioResid)

section Moves
variable {u : Uio} {buf : Nat → UInt8} {n : Nat}

theorem moved_transferred (valid : u.Valid) (resid : n ≤ u.uioResid) (len : n ≤ u.iovLen) :
    u.Transferred buf n (u.filled buf n) (u.moved buf n) where
  base := moved_iovBase u buf n
  len := by rw [moved_iovLen,Nat.sub_add_cancel len]
  resid := by rw [moved_resid_of_le valid buf resid,Nat.sub_add_cancel resid]
  offset := moved_offset u buf n
  read reading := by simp [filled,moved,reading]
  write writing := by simp [filled,moved,writing]

theorem amount_of_covered (room : u.uioResid ≤ u.iovLen) (covered : u.Covered n) :
    u.amount n = min n u.uioResid := by
  unfold Covered at covered
  unfold amount turnSize
  split
  · omega
  · split <;> omega

theorem amount_of_not_covered (room : u.uioResid ≤ u.iovLen) (beyond : ¬u.Covered n) :
    u.uioResid < u.amount n := by
  unfold Covered at beyond
  unfold amount turnSize
  split
  · omega
  · split <;> omega

theorem uiomove_ends (valid : u.Valid) (room : u.uioResid ≤ u.iovLen) :
    (uiomove buf n).wp u
      (fun buf' t => (u.Covered n ∨ ¬u.Stops n) ∧ t = u.moved buf (u.amount n) ∧
        buf' = u.filled buf (u.amount n))
      (fun e t => e = .efault ∧ u.Stops n ∧ u.SameCursor t)
      (fun _ t => u.Stops n ∧ t = u ∨ ¬u.Stops n ∧ t = u.moved buf (u.amount n)) := by
  rw [uiomove,wp_bind,wp_read,wp_bind,wp_assert]
  split
  · rename_i space
    rcases Nat.eq_zero_or_pos n with rfl | some_
    · have covered : u.Covered 0 := .inl (Nat.zero_le _)
      rw [moveLoop_done,wp_pure,amount_of_covered room covered,Nat.zero_min]
      exact ⟨.inl covered,(valid.moved_zero buf).symm,(filled_zero u buf).symm⟩
    · obtain ⟨m,rfl⟩ : ∃ m, n = m + 1 := ⟨n - 1,by omega⟩
      rcases Nat.eq_zero_or_pos u.uioResid with done | resid
      · rw [moveLoop,wp_bind,wp_read,if_neg (by omega),wp_pure,amount,if_pos done]
        exact ⟨.inl (.inr (.inr done)),(valid.moved_zero buf).symm,(filled_zero u buf).symm⟩
      · have len : 0 < u.iovLen := by omega
        rw [amount,if_neg (by omega)]
        have goes : ¬u.Faults (u.turnSize (m + 1)) → ¬u.Stops (m + 1) := by
          rintro reached (refused | faulted)
          · simp [refused] at space
          · exact reached faulted
        apply wp_mono (moveLoop_ends some_ resid len)
        · exact fun _ _ ended => ⟨.inr (goes ended.1),ended.2⟩
        · exact fun _ _ ended => ⟨ended.1,.inr ended.2.1,ended.2.2⟩
        · exact fun _ _ ended => .inr ⟨goes ended.1,ended.2⟩
  · rename_i space
    exact .inl ⟨.inl (by simpa using space),rfl⟩

theorem SameCursor.base {t : Uio} (same : u.SameCursor t) : t.iovBase = u.iovBase := by
  obtain ⟨m,rfl⟩ := same
  rfl

theorem covered_transferred (buf : Nat → UInt8) (valid : u.Valid) (room : u.uioResid ≤ u.iovLen)
    (covered : u.Covered n) :
    u.Transferred buf (min n u.uioResid) (u.filled buf (u.amount n)) (u.moved buf (u.amount n)) := by
  rw [amount_of_covered room covered]
  exact moved_transferred valid (Nat.min_le_right _ _) (Nat.le_trans (Nat.min_le_right _ _) room)

theorem movesExactly_iff (valid : u.Valid) (room : u.uioResid ≤ u.iovLen) :
    u.MovesExactly buf n ↔ u.Covered n ∨ u.Stops n := by
  apply wp_iff
  apply wp_mono (uiomove_ends valid room)
  · rintro buf' t ⟨known,rfl,rfl⟩
    constructor
    · intro transferred
      by_contra neither
      have more := amount_of_not_covered room fun covered => neither (.inl covered)
      have base := transferred.base
      rw [moved_iovBase] at base
      omega
    · intro either
      apply covered_transferred buf valid room
      rcases either with covered | stops
      · exact covered
      · exact known.resolve_right fun goes => goes stops
  · rintro e t ⟨-,stops,same⟩
    exact iff_of_true (by rw [same.base]; omega) (.inr stops)
  · rintro site t (⟨stops,rfl⟩ | ⟨goes,rfl⟩)
    · exact iff_of_true (Nat.le_add_right _ _) (.inr stops)
    · rw [moved_iovBase]
      constructor
      · intro bounded
        by_contra neither
        have more := amount_of_not_covered room fun covered => neither (.inl covered)
        omega
      · intro either
        rw [amount_of_covered room (either.resolve_right goes)]
        omega

end Moves

/-! Sequences of calls -/

structure Advanced (u t : Uio) : Prop where
  valid : t.Valid
  room : t.uioResid ≤ t.iovLen
  total : t.iovBase + t.uioResid = u.iovBase + u.uioResid

theorem Advanced.trans {u v w : Uio} (first : u.Advanced v) (second : v.Advanced w) : u.Advanced w :=
  ⟨second.valid,second.room,second.total.trans first.total⟩

theorem Advanced.bound {u t : Uio} (advanced : u.Advanced t) : t.iovBase ≤ u.iovBase + u.uioResid :=
  advanced.total ▸ Nat.le_add_right _ _

section Runs
variable {u : Uio} {buf : Nat → UInt8} {n : Nat} (valid : u.Valid) (room : u.uioResid ≤ u.iovLen)
include valid room

theorem advanced_refl : u.Advanced u := ⟨valid,room,rfl⟩

theorem advanced_same {t : Uio} (same : u.SameCursor t) : u.Advanced t := by
  obtain ⟨m,rfl⟩ := same
  exact ⟨⟨valid.low,valid.high,valid.resid⟩,room,rfl⟩

theorem advanced_moved (buf : Nat → UInt8) (covered : u.Covered n) : u.Advanced (u.moved buf (u.amount n)) := by
  have done := covered_transferred buf valid room covered
  have := done.base
  have := done.len
  have := done.resid
  exact ⟨moved_valid buf,by omega,by omega⟩

theorem uiomove_advances (covered : u.Covered n ∨ u.Stops n) :
    (uiomove buf n).wp u (fun _ t => u.Advanced t) (fun _ t => u.Advanced t) fun _ t => u.Advanced t := by
  apply wp_mono (uiomove_ends valid room)
  · rintro buf' t ⟨known,rfl,-⟩
    rcases covered with covered | stops
    · exact advanced_moved valid room buf covered
    · exact advanced_moved valid room buf (known.resolve_right fun goes => goes stops)
  · exact fun _ _ ended => advanced_same valid room ended.2.2
  · rintro _ t (⟨_,rfl⟩ | ⟨goes,rfl⟩)
    · exact advanced_refl valid room
    · exact advanced_moved valid room buf (covered.resolve_right goes)

end Runs

def CoveredZeros (u : Uio) (n : Nat) : Prop :=
  n ≤ u.uioResid ∨ u.uioResid = u.iovLen ∨ u.uioResid % 16 = 0

theorem zerosLoop_advances {u : Uio} {n : Nat} (valid : u.Valid) (room : u.uioResid ≤ u.iovLen)
    (turns : Nat) (covered : u.CoveredZeros n) :
    (zerosLoop turns n).wp u (fun _ t => u.Advanced t) (fun _ t => u.Advanced t)
      fun _ t => u.Advanced t := by
  induction turns generalizing u n with
  | zero => exact advanced_refl valid room
  | succ turns ih =>
    simp only [zerosLoop]
    by_cases some_ : n > 0
    · rw [if_pos some_]
      generalize amt_ : (if 16 > n then n else 16) = amt
      unfold CoveredZeros at covered
      have piece : u.Covered amt := by
        unfold Covered
        split at amt_ <;> omega
      rw [wp_bind]
      apply wp_mono (uiomove_ends valid room)
      · rintro _ t ⟨-,rfl,-⟩
        have done := covered_transferred (fun _ => 0) valid room piece
        have advanced := advanced_moved valid room (fun _ => 0) piece
        have rest : (u.moved (fun _ => 0) (u.amount amt)).CoveredZeros (n - amt) := by
          have := done.len
          have := done.resid
          unfold CoveredZeros
          split at amt_ <;> omega
        apply wp_mono (ih advanced.valid advanced.room rest)
        · exact fun _ _ later => advanced.trans later
        · exact fun _ _ later => advanced.trans later
        · exact fun _ _ later => advanced.trans later
      · exact fun _ _ ended => advanced_same valid room ended.2.2
      · rintro _ t (⟨_,rfl⟩ | ⟨_,rfl⟩)
        · exact advanced_refl valid room
        · exact advanced_moved valid room _ piece
    · rw [if_neg some_]
      exact advanced_refl valid room

inductive MoveCall where
  | uiomove (ptr : Nat → UInt8) (n : Nat)
  | uiomovezeros (n : Nat)

namespace MoveCall

def run : MoveCall → Call Uio Unit
  | uiomove ptr n => do
    let _ ← Uio.uiomove ptr n
  | uiomovezeros n => Uio.uiomovezeros n

/-- The call needs no bound by the residue. -/
def Covered : MoveCall → Uio → Prop
  | uiomove _ n, u => u.Covered n ∨ u.Stops n
  | uiomovezeros n, u => u.CoveredZeros n

theorem run_advances {u : Uio} (valid : u.Valid) (room : u.uioResid ≤ u.iovLen) (call : MoveCall)
    (covered : call.Covered u) :
    call.run.wp u (fun _ t => u.Advanced t) (fun _ t => u.Advanced t) fun _ t => u.Advanced t := by
  cases call with
  | uiomove ptr n =>
    rw [run,wp_bind]
    exact uiomove_advances valid room covered
  | uiomovezeros n =>
    rw [run,Uio.uiomovezeros,wp_bind,wp_read,wp_bind,wp_assert]
    split
    · exact zerosLoop_advances valid room n covered
    · exact advanced_refl valid room

end MoveCall

theorem calls_advance {u t : Uio} {trace : List (MoveCall × Except Errno Unit)} (valid : u.Valid)
    (room : u.uioResid ≤ u.iovLen) (calls : Calls MoveCall.run MoveCall.Covered u trace t) :
    u.Advanced t := by
  apply calls.invariant
  · intro call v before covered
    apply wp_liberal (call.run_advances before.valid before.room covered)
    · exact fun _ _ => before.trans
    · exact fun _ _ => before.trans
  · exact advanced_refl valid room

/-- `uiomove` moves exactly what the uio allows when its request is covered, or when it stops, and
then only; and covered calls never move more than the residue between them. -/
theorem uiomove_exact_iff (u : Uio) (buf : Nat → UInt8) (n : Nat) (valid : u.Valid)
    (room : u.uioResid ≤ u.iovLen) :
    (u.MovesExactly buf n ↔ u.Covered n ∨ u.Stops n) ∧
    ∀ trace t, Calls MoveCall.run MoveCall.Covered u trace t →
      t.iovBase ≤ u.iovBase + u.uioResid ∧
      ∀ call : MoveCall, call.Covered t → (call.run t).2.iovBase ≤ u.iovBase + u.uioResid := by
  refine ⟨movesExactly_iff valid room,fun trace t calls => ?_⟩
  have advanced := calls_advance valid room calls
  refine ⟨advanced.bound,fun call covered => ?_⟩
  have last := wp_after (call.run_advances advanced.valid advanced.room covered)
  exact (advanced.trans last).bound

/-- A read into four bytes of kernel memory of which one is wanted. -/
def shortResid : Uio := { mkKuio (fun _ => 0) 4 0 .read with uioResid := 1 }

/-- One byte is asked for, and then one more. -/
theorem uiomove_exact_one :
    shortResid.MovesExactly (fun _ => 7) 1 ∧
    ((MoveCall.uiomovezeros 1).run shortResid).2.iovBase ≤ shortResid.iovBase + shortResid.uioResid := by
  have exact_ := uiomove_exact_iff shortResid (fun _ => 7) 1 ⟨by decide,by decide,by decide⟩ (by decide)
  exact ⟨exact_.1.mpr (.inl (.inl (by decide))),(exact_.2 [] _ (.nil _)).2 _ (.inl (by decide))⟩

/-- A request for three bytes, as `pseudorand_read` makes it, moves all of them and leaves a residue
of almost 4 GB. -/
theorem uiomove_beyond_resid :
    ((uiomove (fun _ => 7) 3 shortResid).1 = .ok (fun _ => 7) ∧
      (uiomove (fun _ => 7) 3 shortResid).2.iovBase = shortResid.iovBase + 3 ∧
      (uiomove (fun _ => 7) 3 shortResid).2.uioResid = 4294967294) ∧
    ¬shortResid.MovesExactly (fun _ => 7) 3 := by
  refine ⟨⟨rfl,by decide +kernel,by decide +kernel⟩,?_⟩
  rw [movesExactly_iff ⟨by decide,by decide,by decide⟩ (by decide)]
  rintro (covered | refused | faults)
  · exact absurd covered (by unfold Covered; decide)
  · exact absurd refused (by decide)
  · exact faults.1 rfl

end Uio
end Os161
