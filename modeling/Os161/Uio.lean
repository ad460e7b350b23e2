import Mathlib.Data.List.TakeWhile
import Os161.Kernel

/-! `userprog/uio.c`: moving data between a kernel buffer and the region a `struct uio`
describes. A kernel buffer is the memory seen from its pointer. -/
namespace Os161

inductive UioRw where
  | read | write
  deriving DecidableEq, Repr

inductive UioSeg where
  | userspace | sysspace | userispace
  deriving DecidableEq, Repr

/-- `mem` is the memory the iovec points into. `userOk` says which of its addresses
`copyin` and `copyout` can reach, and `spaceOk` whether `uio_space` is the space the
assertion in `uiomove` asks for. -/
structure Uio where
  iovBase : Nat
  iovLen : Nat
  uioOffset : Int
  uioResid : Nat
  uioSegflg : UioSeg
  uioRw : UioRw
  spaceOk : Bool
  mem : Nat → UInt8
  userOk : Nat → Bool

namespace Uio

def reach (u : Uio) (size : Nat) : Nat :=
  ((List.range size).takeWhile fun i => u.userOk (u.iovBase + i)).length

/-- `iov->iov_kbase += size; iov->iov_len -= size; uio_resid -= size; uio_offset += size` -/
def advance (u : Uio) (size : Nat) : Uio :=
  { u with
    iovBase := u.iovBase + size
    iovLen := u.iovLen - size
    uioResid := u32 (u.uioResid - size)
    uioOffset := i32 (u.uioOffset + size) }

/-- The copy at the centre of `uiomove`: `pos` is how far `ptr` has advanced in the
kernel buffer. -/
def copy (buf : Nat → UInt8) (pos size : Nat) : Call Uio (Nat → UInt8) := do
  let u ← read
  let moved := if u.uioSegflg = .sysspace then size else u.reach size
  let buf' ← match u.uioRw with
    | .read => do
      put { u with mem := overwrite u.mem u.iovBase (fun i => buf (pos + i)) moved }
      pure buf
    | .write => pure (overwrite buf pos (fun i => u.mem (u.iovBase + i)) moved)
  if moved < size then fail .efault else pure buf'

/-- The loop of `uiomove`; each turn moves at least one byte, so `n` turns suffice. -/
def moveLoop : Nat → Nat → Nat → (Nat → UInt8) → Call Uio (Nat → UInt8)
  | 0, _, _, buf => pure buf
  | turns + 1, n, pos, buf => do
    let u ← read
    if n > 0 ∧ u.uioResid > 0 then
      let size := if u.iovLen > n then n else u.iovLen
      assert (size ≠ 0) .uiomoveSizeZero
      let buf ← copy buf pos size
      modify fun u => u.advance size
      moveLoop turns (n - size) (pos + size) buf
    else pure buf

/-- `uiomove(ptr, n, uio)`; the result is what `ptr` points to afterwards. -/
def uiomove (buf : Nat → UInt8) (n : Nat) : Call Uio (Nat → UInt8) := do
  let u ← read
  assert u.spaceOk .uiomoveSpace
  moveLoop n n 0 buf

/-- The loop of `uiomovezeros`, 16 bytes at a time. -/
def zerosLoop : Nat → Nat → Call Uio Unit
  | 0, _ => pure ()
  | turns + 1, n => do
    if n > 0 then
      let amt := if 16 > n then n else 16
      let _ ← uiomove (fun _ => 0) amt
      zerosLoop turns (n - amt)
    else pure ()

def uiomovezeros (n : Nat) : Call Uio Unit := do
  let u ← read
  assert (u.uioRw = .read) .uiomovezerosWrite
  zerosLoop n n

def mkKuio (kbuf : Nat → UInt8) (len : Nat) (pos : Int) (rw : UioRw) : Uio :=
  { iovBase := 0, iovLen := len, uioOffset := pos, uioResid := len, uioSegflg := .sysspace,
    uioRw := rw, spaceOk := true, mem := kbuf, userOk := fun _ => false }

structure Valid (u : Uio) : Prop where
  low : -2^31 ≤ u.uioOffset
  high : u.uioOffset < 2^31
  resid : u.uioResid < 2^32

def moved (u : Uio) (buf : Nat → UInt8) (n : Nat) : Uio :=
  match u.uioRw with
  | .read => { u.advance n with mem := overwrite u.mem u.iovBase buf n }
  | .write => u.advance n

def filled (u : Uio) (buf : Nat → UInt8) (n : Nat) : Nat → UInt8 :=
  match u.uioRw with
  | .read => buf
  | .write => overwrite buf 0 (fun i => u.mem (u.iovBase + i)) n

def SameCursor (u t : Uio) : Prop := ∃ m, t = { u with mem := m }

section Fields
variable (u : Uio) (buf : Nat → UInt8) (n : Nat)

@[simp] theorem advance_rw : (u.advance n).uioRw = u.uioRw := rfl
@[simp] theorem advance_mem : (u.advance n).mem = u.mem := rfl

@[simp] theorem moved_rw : (u.moved buf n).uioRw = u.uioRw := by
  unfold moved; split <;> simp_all
@[simp] theorem moved_segflg : (u.moved buf n).uioSegflg = u.uioSegflg := by
  unfold moved; split <;> rfl
@[simp] theorem moved_spaceOk : (u.moved buf n).spaceOk = u.spaceOk := by
  unfold moved; split <;> rfl
@[simp] theorem moved_iovBase : (u.moved buf n).iovBase = u.iovBase + n := by
  unfold moved; split <;> rfl
@[simp] theorem moved_iovLen : (u.moved buf n).iovLen = u.iovLen - n := by
  unfold moved; split <;> rfl
theorem moved_offset : (u.moved buf n).uioOffset = i32 (u.uioOffset + n) := by
  unfold moved; split <;> rfl
theorem moved_resid : (u.moved buf n).uioResid = u32 (u.uioResid - n) := by
  unfold moved; split <;> rfl
end Fields

variable {u : Uio}

theorem Valid.advance_zero (valid : u.Valid) : u.advance 0 = u := by
  have offset : i32 (u.uioOffset + 0) = u.uioOffset := by
    rw [Int.add_zero,i32_of_bounds valid.low valid.high]
  have resid : u32 ((u.uioResid : Int) - 0) = u.uioResid := by
    rw [Int.sub_zero,u32_natCast valid.resid]
  cases u
  simp_all [advance]

theorem Valid.moved_zero (valid : u.Valid) (buf : Nat → UInt8) : u.moved buf 0 = u := by
  unfold moved
  split
  · rw [overwrite_none]
    exact valid.advance_zero
  · exact valid.advance_zero

@[simp] theorem filled_zero (u : Uio) (buf : Nat → UInt8) : u.filled buf 0 = buf := by
  unfold filled; split <;> simp

def Open (u : Uio) (n : Nat) : Prop :=
  u.uioSegflg = .sysspace ∨ ∀ i < n, u.userOk (u.iovBase + i) = true

section Open
variable {n m : Nat}

theorem Open.zero (u : Uio) : u.Open 0 := .inr fun _ lt => absurd lt (Nat.not_lt_zero _)

theorem Open.mono (open_ : u.Open n) (le : m ≤ n) : u.Open m :=
  open_.imp_right fun all i lt => all i (Nat.lt_of_lt_of_le lt le)

theorem user_of_not_open (closed : ¬u.Open n) : u.uioSegflg ≠ .sysspace :=
  fun kernel => closed (.inl kernel)

theorem reach_le (u : Uio) (size : Nat) : u.reach size ≤ size := by
  simpa [reach] using (List.takeWhile_prefix (fun i => u.userOk (u.iovBase + i))
    (l := List.range size)).length_le

theorem reach_eq_iff : u.reach n = n ↔ ∀ i < n, u.userOk (u.iovBase + i) = true := by
  unfold reach
  constructor
  · intro whole i lt
    have same := (List.takeWhile_prefix (fun i => u.userOk (u.iovBase + i))
      (l := List.range n)).eq_of_length_le (by rw [whole,List.length_range])
    exact List.takeWhile_eq_self_iff.mp same i (List.mem_range.mpr lt)
  · intro all
    rw [List.takeWhile_eq_self_iff.mpr fun i mem => all i (List.mem_range.mp mem),List.length_range]

theorem not_open_iff :
    ¬u.Open n ↔ (if u.uioSegflg = .sysspace then n else u.reach n) < n := by
  unfold Open
  rw [← reach_eq_iff]
  have := u.reach_le n
  split <;> simp_all

end Open

theorem copy_spec (u : Uio) (buf : Nat → UInt8) (size : Nat) :
    (copy buf 0 size).wp u
      (fun buf' t => u.Open size ∧ t.advance size = u.moved buf size ∧ buf' = u.filled buf size)
      (fun e t => e = .efault ∧ ¬u.Open size ∧ u.SameCursor t) never := by
  simp only [copy,wp_bind,wp_read]
  by_cases open_ : u.Open size
  · have whole : (if u.uioSegflg = .sysspace then size else u.reach size) = size := by
      refine Nat.le_antisymm ?_ (Nat.not_lt.mp fun short => not_open_iff.mpr short open_)
      split
      · exact Nat.le_refl _
      · exact u.reach_le size
    cases rw_ : u.uioRw <;> simp [whole,open_,moved,filled,advance,rw_]
  · have short := not_open_iff.mp open_
    cases rw_ : u.uioRw <;> simp only [wp_bind,wp_put,wp_pure,if_pos short,wp_fail]
    · exact ⟨trivial,open_,_,by rw [rw_]⟩
    · exact ⟨trivial,open_,u.mem,rfl⟩

theorem moveLoop_done (turns pos : Nat) (buf : Nat → UInt8) :
    moveLoop turns 0 pos buf = pure buf := by
  cases turns <;> rfl

variable {n : Nat}

/-- A request inside both the residue and the iovec moves exactly `n` bytes, or
faults on user memory without moving the cursor. -/
theorem uiomove_spec (valid : u.Valid) (space : u.spaceOk = true)
    (buf : Nat → UInt8) (resid : n ≤ u.uioResid) (len : n ≤ u.iovLen) :
    (uiomove buf n).wp u
      (fun buf' t => u.Open n ∧ t = u.moved buf n ∧ buf' = u.filled buf n)
      (fun e t => e = .efault ∧ ¬u.Open n ∧ u.SameCursor t) never := by
  simp only [uiomove,wp_bind,wp_read,wp_assert,space,if_true]
  cases n with
  | zero =>
    rw [moveLoop_done,wp_pure]
    exact ⟨.zero u,(valid.moved_zero buf).symm,(filled_zero u buf).symm⟩
  | succ n =>
    have size : (if u.iovLen > n + 1 then n + 1 else u.iovLen) = n + 1 := by
      split <;> omega
    simp only [moveLoop,wp_bind,wp_read]
    rw [if_pos ⟨by omega,by omega⟩]
    simp only [size,wp_bind,wp_assert,ne_eq,Nat.add_one_ne_zero,not_false_eq_true,
      decide_true,if_true,Nat.sub_self,moveLoop_done,wp_pure,wp_modify]
    exact copy_spec u buf (n + 1)

structure Kept (u t : Uio) : Prop where
  rw_ : t.uioRw = u.uioRw
  segflg : t.uioSegflg = u.uioSegflg
  spaceOk : t.spaceOk = u.spaceOk

theorem SameCursor.kept {t : Uio} (same : u.SameCursor t) : u.Kept t := by
  obtain ⟨m,rfl⟩ := same
  exact ⟨rfl,rfl,rfl⟩

theorem moved_kept (u : Uio) (buf : Nat → UInt8) (n : Nat) : u.Kept (u.moved buf n) :=
  ⟨moved_rw u buf n,moved_segflg u buf n,moved_spaceOk u buf n⟩

theorem Kept.trans {v w : Uio} (first : u.Kept v) (second : v.Kept w) : u.Kept w :=
  ⟨second.rw_.trans first.rw_,second.segflg.trans first.segflg,second.spaceOk.trans first.spaceOk⟩

theorem advance_advance (u : Uio) (n m : Nat) : (u.advance n).advance m = u.advance (n + m) := by
  simp only [advance,i32_i32_add,u32_u32_sub,Nat.cast_add,Int.add_assoc,Int.sub_sub,
    Nat.add_assoc,Nat.sub_sub]

theorem moved_moved (u : Uio) (buf : Nat → UInt8) (n m : Nat) :
    (u.moved buf n).moved (fun i => buf (n + i)) m = u.moved buf (n + m) := by
  have step := u.advance_advance n m
  cases rw_ : u.uioRw
  · simp only [moved,rw_,advance_rw]
    rw [← step,← overwrite_append]
    rfl
  · simp only [moved,rw_,advance_rw]
    exact step

theorem moved_congr (u : Uio) {buf buf' : Nat → UInt8} (same : ∀ i < n, buf i = buf' i) :
    u.moved buf n = u.moved buf' n := by
  have written : overwrite u.mem u.iovBase buf n = overwrite u.mem u.iovBase buf' n := by
    funext i
    simp only [overwrite]
    split
    · exact same _ (by omega)
    · rfl
  simp only [moved,written]

theorem moved_valid (buf : Nat → UInt8) : (u.moved buf n).Valid where
  low := by rw [moved_offset]; exact i32_low _
  high := by rw [moved_offset]; exact i32_high _
  resid := by rw [moved_resid]; exact u32_lt _

theorem moved_resid_of_le (valid : u.Valid) (buf : Nat → UInt8)
    (le : n ≤ u.uioResid) : (u.moved buf n).uioResid = u.uioResid - n := by
  have := valid.resid
  rw [moved_resid,u32_of_bounds (by omega) (by omega)]
  omega

theorem moved_offset_of_lt (valid : u.Valid) (buf : Nat → UInt8)
    (lt : u.uioOffset + n < 2^31) : (u.moved buf n).uioOffset = u.uioOffset + n := by
  have := valid.low
  rw [moved_offset,i32_of_bounds (by omega) lt]

theorem open_add {n m : Nat} (buf : Nat → UInt8) :
    u.Open (n + m) ↔ u.Open n ∧ (u.moved buf n).Open m := by
  have userOk : (u.moved buf n).userOk = u.userOk := by unfold Uio.moved; split <;> rfl
  unfold Open
  rw [moved_segflg,moved_iovBase,userOk]
  constructor
  · rintro (kernel | all)
    · exact ⟨.inl kernel,.inl kernel⟩
    · refine ⟨.inr fun i lt => all i (by omega),.inr fun i lt => ?_⟩
      rw [Nat.add_assoc]
      exact all (n + i) (by omega)
  · rintro ⟨kernel | first,kernel' | second⟩
    · exact .inl kernel
    · exact .inl kernel
    · exact .inl kernel'
    · refine .inr fun i lt => ?_
      by_cases low : i < n
      · exact first i low
      · have := second (i - n) (by omega)
        rwa [show u.iovBase + n + (i - n) = u.iovBase + i by omega] at this

theorem zerosLoop_spec (valid : u.Valid) (space : u.spaceOk = true)
    {turns : Nat} (enough : n ≤ turns) (resid : n ≤ u.uioResid) (len : n ≤ u.iovLen) :
    (zerosLoop turns n).wp u
      (fun _ t => u.Open n ∧ t = u.moved (fun _ => 0) n)
      (fun e t => e = .efault ∧ ¬u.Open n ∧ u.Kept t) never := by
  induction turns generalizing u n with
  | zero =>
    obtain rfl : n = 0 := by omega
    exact ⟨.zero u,(valid.moved_zero _).symm⟩
  | succ turns ih =>
    simp only [zerosLoop]
    by_cases some_ : n > 0
    · rw [if_pos some_]
      generalize amount : (if 16 > n then n else 16) = amt
      have small : amt ≤ n ∧ 0 < amt := by split at amount <;> omega
      have parts := open_add (u := u) (n := amt) (m := n - amt) fun _ => 0
      rw [Nat.add_sub_cancel' small.1] at parts
      rw [wp_bind]
      apply wp_ends (uiomove_spec valid space (fun _ => 0) (show amt ≤ u.uioResid by omega)
        (show amt ≤ u.iovLen by omega))
      · rintro _ t ⟨first,rfl,-⟩
        have left := moved_resid_of_le valid (fun _ => 0) (show amt ≤ u.uioResid by omega)
        apply wp_ends (ih (moved_valid _) (by simpa using space) (by omega) (by omega)
          (by simp; omega))
        · rintro _ t ⟨rest,rfl⟩
          rw [moved_moved u (fun _ => 0),Nat.add_sub_cancel' small.1]
          exact ⟨parts.mpr ⟨first,rest⟩,rfl⟩
        · rintro e t ⟨code,closed,kept⟩
          exact ⟨code,fun whole => closed (parts.mp whole).2,(moved_kept _ _ _).trans kept⟩
      · exact fun e t h => ⟨h.1,fun whole => h.2.1 (parts.mp whole).1,h.2.2.kept⟩
    · rw [if_neg some_,wp_pure]
      obtain rfl : n = 0 := by omega
      exact ⟨.zero u,(valid.moved_zero _).symm⟩

theorem uiomovezeros_spec (valid : u.Valid) (space : u.spaceOk = true)
    (reading : u.uioRw = .read) (resid : n ≤ u.uioResid) (len : n ≤ u.iovLen) :
    (uiomovezeros n).wp u
      (fun _ t => u.Open n ∧ t = u.moved (fun _ => 0) n)
      (fun e t => e = .efault ∧ ¬u.Open n ∧ u.Kept t) never := by
  simp only [uiomovezeros,wp_bind,wp_read,wp_assert,reading,decide_true,
    if_true]
  exact zerosLoop_spec valid space (Nat.le_refl n) resid len

end Uio
end Os161
