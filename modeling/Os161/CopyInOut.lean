import Os161.Dumbvm
import Os161.Memmove

/-! `lib/copyinout.c`: copying between the kernel and user memory whose addresses cannot be trusted.
The two halves of the address space share one memory. A user access that `vm_fault` refuses ends in
`copyfail`, if `pcb_badfaultfunc` says so. -/
namespace Os161

def userTop : Nat := usertop.toNat

theorem userTop_eq : userTop = 2147483648 := rfl

/-- What the copying functions see of the machine. `readable` and `writable` tell which user
addresses can be accessed without a fatal fault, and `badfaultfunc` whether `pcb_badfaultfunc` is
`copyfail` or NULL. All addresses that were accessed are logged. -/
structure CopyState where
  mem : Nat → UInt8
  readable : Nat → Bool
  writable : Nat → Bool
  badfaultfunc : Bool
  loads : List Nat
  stores : List Nat

/-- `longjmp(curthread->t_pcb.pcb_copyjmp, 1)` -/
inductive Longjmp where
  | copyjmp
  deriving DecidableEq, Repr

/-- `panic("I can't handle this... I think I'll just die now...")` -/
inductive FatalFault where
  | kernelMode
  deriving DecidableEq, Repr

namespace CopyState

def CanLoad (s : CopyState) (a : Nat) : Prop := a < userTop → s.readable a = true
def CanStore (s : CopyState) (a : Nat) : Prop := a < userTop → s.writable a = true

instance (s : CopyState) (a : Nat) : Decidable (s.CanLoad a) := inferInstanceAs (Decidable (_ → _))
instance (s : CopyState) (a : Nat) : Decidable (s.CanStore a) := inferInstanceAs (Decidable (_ → _))

/-- The end of `mips_trap` for a fault in kernel mode. -/
def fault : Exec CopyState Longjmp FatalFault α := do
  if (← read).badfaultfunc then fail .copyjmp else panic .kernelMode

def span (w : Width) (a : Nat) : List Nat := (List.range w.size).map (a + ·)

def logLoad (w : Width) (a : Nat) (s : CopyState) : CopyState := { s with loads := span w a ++ s.loads }
def logStore (w : Width) (a : Nat) (s : CopyState) : CopyState := { s with stores := span w a ++ s.stores }

def bus : Bus CopyState Longjmp FatalFault where
  load w a := do
    modify (logLoad w a)
    let s ← read
    if a % w.size = 0 ∧ ∀ b ∈ span w a, s.CanLoad b then return w.fetch s.mem a else fault
  store w a value := do
    modify (logStore w a)
    let s ← read
    if a % w.size = 0 ∧ ∀ b ∈ span w a, s.CanStore b then
      put { s with mem := overwrite s.mem a (w.image value) w.size }
    else fault

def loadByte (a : Nat) : Exec CopyState Longjmp FatalFault UInt8 := bus.load .byte a

/-- `setjmp` returns once more, here with `none`, when the code after it jumps. -/
def setjmp (call : Exec CopyState Longjmp FatalFault α) : Exec CopyState Errno FatalFault (Option α) :=
  fun s =>
    match call s with
    | (.ok value, t) => (.ok (some value), t)
    | (.err _, t) => (.ok none, t)
    | (.panic site, t) => (.panic site, t)

def setBadfaultfunc (on : Bool) (s : CopyState) : CopyState := { s with badfaultfunc := on }

/-- What all four functions put around their copy. -/
def guarded (call : Exec CopyState Longjmp FatalFault (Except Errno α)) :
    Exec CopyState Errno FatalFault α := do
  modify (setBadfaultfunc true)
  match ← setjmp call with
  | none =>
    modify (setBadfaultfunc false)
    fail .efault
  | some result =>
    modify (setBadfaultfunc false)
    give result

end CopyState

/-- `copycheck`, with `*stoplen` as the value of a successful check. -/
def copycheck (userptr len : Nat) : Except Errno Nat :=
  let bot := userptr
  let top := u32 (bot + len - 1)
  if top < bot then .error .efault
  else if bot ≥ userTop then .error .efault
  else if top ≥ userTop then .ok (u32 (userTop - bot))
  else .ok len

open CopyState

/-- `copyin` and `copyout` differ in the direction of the copy. -/
def copyBlock (user len : Nat) (copy : Exec CopyState Longjmp FatalFault Nat) :
    Exec CopyState Errno FatalFault Unit := do
  let stoplen ← give (copycheck user len)
  if stoplen ≠ len then fail .efault
  else guarded do
    let _ ← copy
    return .ok ()

def copyin (usersrc dest len : Nat) : Exec CopyState Errno FatalFault Unit :=
  copyBlock usersrc len (bus.memcpy dest usersrc len)

def copyout (src userdest len : Nat) : Exec CopyState Errno FatalFault Unit :=
  copyBlock userdest len (bus.memcpy userdest src len)

/-- The loop of `copystr`, which has `turns` more turns. It returns `*gotlen` where it finds the
NUL. -/
def copystrLoop (dest src : Nat) : Nat → Nat → Exec CopyState Longjmp FatalFault (Option Nat)
  | 0, _ => pure none
  | turns + 1, i => do
    bus.copyCell .byte dest src i
    let c ← loadByte (Width.byte.address src i)
    if c = 0 then return some (i + 1) else copystrLoop dest src turns (i + 1)

def copystr (dest src maxlen stoplen : Nat) : Exec CopyState Longjmp FatalFault (Except Errno Nat) := do
  match ← copystrLoop dest src (min maxlen stoplen) 0 with
  | some gotlen => return .ok gotlen
  | none => if stoplen < maxlen then return .error .efault else return .error .enametoolong

/-- `copyinstr` and `copyoutstr` differ in the direction of the copy. -/
def copyString (user len : Nat) (copy : Nat → Exec CopyState Longjmp FatalFault (Except Errno Nat)) :
    Exec CopyState Errno FatalFault Nat := do
  let stoplen ← give (copycheck user len)
  guarded (copy stoplen)

def copyinstr (usersrc dest len : Nat) : Exec CopyState Errno FatalFault Nat :=
  copyString usersrc len (copystr dest usersrc len)

def copyoutstr (src userdest len : Nat) : Exec CopyState Errno FatalFault Nat :=
  copyString userdest len (copystr userdest src len)

/-! The parts -/

namespace CopyState
variable {s t : CopyState} {w : Width} {a b : Nat}

theorem mem_span : b ∈ span w a ↔ a ≤ b ∧ b < a + w.size := by
  simp only [span,List.mem_map,List.mem_range]
  constructor
  · rintro ⟨i,less,rfl⟩
    omega
  · rintro ⟨low,high⟩
    exact ⟨b - a,by omega,by omega⟩

@[simp] theorem wp_setjmp (call : Exec CopyState Longjmp FatalFault α)
    {ok : Option α → CopyState → Prop} {err : Errno → CopyState → Prop}
    {halt : FatalFault → CopyState → Prop} :
    (setjmp call).wp s ok err halt ↔ call.wp s (fun value => ok (some value)) (fun _ => ok none) halt := by
  simp only [Exec.wp,setjmp]
  rcases call s with ⟨_ | _ | _,t⟩ <;> exact Iff.rfl

theorem wp_guarded {call : Exec CopyState Longjmp FatalFault (Except Errno α)}
    {ok : α → CopyState → Prop} {err : Errno → CopyState → Prop}
    (spec : call.wp (s.setBadfaultfunc true)
      (fun result t => match result with
        | .ok value => ok value (t.setBadfaultfunc false)
        | .error code => err code (t.setBadfaultfunc false))
      (fun _ t => err .efault (t.setBadfaultfunc false)) never) :
    (guarded call).wp s ok err never := by
  rw [guarded,wp_bind,wp_modify,wp_bind,wp_setjmp]
  apply wp_ends spec
  · intro result t reached
    cases result with
    | ok value => exact reached
    | error code => exact reached
  · exact fun _ _ reached => reached

section Access
variable {err : Longjmp → CopyState → Prop}

theorem wp_fault {ok : α → CopyState → Prop} (armed : s.badfaultfunc = true) (jumped : err .copyjmp s) :
    fault.wp s ok err never := by
  rw [fault,wp_bind,wp_read,armed,if_pos rfl,wp_fail]
  exact jumped

theorem wp_load {ok : w.Value → CopyState → Prop} (armed : s.badfaultfunc = true)
    (aligned : a % w.size = 0)
    (loaded : (∀ b ∈ span w a, s.CanLoad b) → ok (w.fetch s.mem a) (s.logLoad w a))
    (faulted : (∃ b ∈ span w a, ¬s.CanLoad b) → err .copyjmp (s.logLoad w a)) :
    (bus.load w a).wp s ok err never := by
  simp only [bus,wp_bind,wp_modify,wp_read,wp_ite,aligned,true_and]
  refine ⟨loaded,fun refused => wp_fault armed (faulted ?_)⟩
  by_contra allowed
  exact refused fun b inside => by_contra fun no => allowed ⟨b,inside,no⟩

theorem wp_store {value : w.Value} {ok : Unit → CopyState → Prop} (armed : s.badfaultfunc = true)
    (aligned : a % w.size = 0)
    (stored : (∀ b ∈ span w a, s.CanStore b) →
      ok () { s.logStore w a with mem := overwrite s.mem a (w.image value) w.size })
    (faulted : (∃ b ∈ span w a, ¬s.CanStore b) → err .copyjmp (s.logStore w a)) :
    (bus.store w a value).wp s ok err never := by
  simp only [bus,wp_bind,wp_modify,wp_read,wp_ite,aligned,true_and]
  refine ⟨stored,fun refused => wp_fault armed (faulted ?_)⟩
  by_contra allowed
  exact refused fun b inside => by_contra fun no => allowed ⟨b,inside,no⟩

theorem wp_loadByte {ok : UInt8 → CopyState → Prop} (armed : s.badfaultfunc = true)
    (allowed : s.CanLoad a) (loaded : ok (s.mem a) (s.logLoad .byte a)) :
    (loadByte a).wp s ok err never := by
  apply wp_load (w := .byte) armed (Nat.mod_one a)
  · exact fun _ => loaded
  · rintro ⟨b,member,refused⟩
    rw [mem_span] at member
    simp only [Width.size] at member
    obtain rfl : b = a := by omega
    exact absurd allowed refused

end Access

/-- Since the state `s`, only the two ranges of a copy have been accessed. -/
structure Confined (s : CopyState) (dst src len : Nat) (t : CopyState) : Prop where
  readable : t.readable = s.readable
  writable : t.writable = s.writable
  badfaultfunc : t.badfaultfunc = s.badfaultfunc
  loads : ∀ a ∈ t.loads, a ∈ s.loads ∨ src ≤ a ∧ a < src + len
  stores : ∀ a ∈ t.stores, a ∈ s.stores ∨ dst ≤ a ∧ a < dst + len

def Open (s : CopyState) (dst src i : Nat) : Prop := s.CanLoad (src + i) ∧ s.CanStore (dst + i)

variable {dst src len : Nat}

theorem Confined.refl (s : CopyState) (dst src len : Nat) : Confined s dst src len s :=
  ⟨rfl,rfl,rfl,fun _ => .inl,fun _ => .inl⟩

section
variable (confined : Confined s dst src len t)
include confined

theorem Confined.logLoad
    (inside : ∀ b ∈ span w a, src ≤ b ∧ b < src + len) : Confined s dst src len (t.logLoad w a) where
  readable := confined.readable
  writable := confined.writable
  badfaultfunc := confined.badfaultfunc
  loads b member := by
    rcases List.mem_append.mp member with new | old
    · exact .inr (inside b new)
    · exact confined.loads b old
  stores := confined.stores

theorem Confined.logStore
    (inside : ∀ b ∈ span w a, dst ≤ b ∧ b < dst + len) : Confined s dst src len (t.logStore w a) where
  readable := confined.readable
  writable := confined.writable
  badfaultfunc := confined.badfaultfunc
  loads := confined.loads
  stores b member := by
    rcases List.mem_append.mp member with new | old
    · exact .inr (inside b new)
    · exact confined.stores b old

theorem Confined.setMem (mem : Nat → UInt8) :
    Confined s dst src len { t with mem } :=
  ⟨confined.readable,confined.writable,confined.badfaultfunc,confined.loads,confined.stores⟩

theorem Confined.canLoad : t.CanLoad a ↔ s.CanLoad a := by
  rw [CanLoad,CanLoad,confined.readable]

theorem Confined.canStore : t.CanStore a ↔ s.CanStore a := by
  rw [CanStore,CanStore,confined.writable]

theorem Confined.loads_below (user : src + len ≤ userTop) :
    ∀ a ∈ t.loads, a ∈ s.loads ∨ a < userTop := by
  intro a member
  rcases confined.loads a member with old | new
  · exact .inl old
  · exact .inr (by omega)

theorem Confined.stores_below (user : dst + len ≤ userTop) :
    ∀ a ∈ t.stores, a ∈ s.stores ∨ a < userTop := by
  intro a member
  rcases confined.stores a member with old | new
  · exact .inl old
  · exact .inr (by omega)

end

section Copy
variable (armed : s.badfaultfunc = true) (dstFits : dst + len ≤ 2^32) (srcFits : src + len ≤ 2^32)
include armed dstFits srcFits

theorem copyCell_confined {i : Nat} (dstAligned : dst % w.size = 0) (srcAligned : src % w.size = 0)
    (inside : w.size * (i + 1) ≤ len) (confined : Confined s dst src len t) :
    (bus.copyCell w dst src i).wp t
      (fun _ u => Confined s dst src len u ∧
        (∀ j, w.size * i ≤ j → j < w.size * (i + 1) → s.Open dst src j) ∧
        u.mem = overwrite t.mem (dst + w.size * i) (fun j => t.mem (src + w.size * i + j)) w.size)
      (fun _ u => Confined s dst src len u ∧
        ∃ j, w.size * i ≤ j ∧ j < w.size * (i + 1) ∧ ¬s.Open dst src j) never := by
  rw [Bus.copyCell,w.address_eq dstFits inside,w.address_eq srcFits inside,wp_bind]
  rw [Nat.mul_succ] at inside ⊢
  have logged := confined.logLoad (w := w) (a := src + w.size * i) fun b member => by
    rw [mem_span] at member
    omega
  have inRange {b : Nat} (member : b ∈ span w (dst + w.size * i)) : dst ≤ b ∧ b < dst + len := by
    rw [mem_span] at member
    omega
  apply wp_load (confined.badfaultfunc.trans armed) (w.aligned_cell srcAligned)
  · intro loadable
    apply wp_store (logged.badfaultfunc.trans armed) (w.aligned_cell dstAligned)
    · intro storable
      refine ⟨(logged.logStore fun b => inRange).setMem _,?_,?_⟩
      · intro j low high
        constructor
        · exact confined.canLoad.mp (loadable _ (mem_span.mpr (by omega)))
        · exact logged.canStore.mp (storable _ (mem_span.mpr (by omega)))
      · funext a
        simp only [overwrite,logLoad]
        split
        · exact w.image_fetch t.mem _ (by omega)
        · rfl
    · rintro ⟨b,member,refused⟩
      refine ⟨logged.logStore fun b => inRange,b - dst,?_⟩
      rw [mem_span] at member
      refine ⟨by omega,by omega,fun open_ => refused (logged.canStore.mpr ?_)⟩
      rw [show b = dst + (b - dst) by omega]
      exact open_.2
  · rintro ⟨b,member,refused⟩
    refine ⟨logged,b - src,?_⟩
    rw [mem_span] at member
    refine ⟨by omega,by omega,fun open_ => refused (confined.canLoad.mpr ?_)⟩
    rw [show b = src + (b - src) by omega]
    exact open_.1

theorem memcpy_confined (apart : dst ≤ src ∨ src + len ≤ dst) :
    (bus.memcpy dst src len).wp s
      (fun _ t => Confined s dst src len t ∧ (∀ j < len, s.Open dst src j) ∧
        t.mem = copiedFront s.mem dst src len)
      (fun _ t => Confined s dst src len t ∧ ∃ j < len, ¬s.Open dst src j) never := by
  apply wp_mono (Bus.wp_memcpy (fun n t => Confined s dst src len t ∧
    (∀ j < n, s.Open dst src j) ∧ t.mem = copiedFront s.mem dst src n) ?_ ?_)
  · exact fun _ t reached => reached.2
  · exact fun _ _ h => h
  · exact fun _ _ h => h
  · exact ⟨.refl s dst src len,by simp,(overwrite_none s.mem dst _).symm⟩
  · rintro w i t dstAligned srcAligned inside ⟨confined,copied,same⟩
    apply wp_ends (copyCell_confined armed dstFits srcFits dstAligned srcAligned inside confined)
    · rintro _ u ⟨next,cell,written⟩
      refine ⟨next,?_,?_⟩
      · intro j less
        rcases Nat.lt_or_ge j (w.size * i) with before | here
        · exact copied j before
        · exact cell j here less
      · rw [written,same,copiedFront_cell apart w inside]
    · rintro _ u ⟨next,j,_,less,refused⟩
      exact ⟨next,j,by omega,refused⟩

def FirstNul (mem : Nat → UInt8) (p k : Nat) : Prop := mem (p + k) = 0 ∧ ∀ j < k, mem (p + j) ≠ 0

structure Reached (s : CopyState) (dst src len i : Nat) (t : CopyState) : Prop where
  confined : Confined s dst src len t
  copied : ∀ j < i, s.Open dst src j ∧ s.mem (src + j) ≠ 0
  mem : t.mem = copiedFront s.mem dst src i

def LoopEnd (s : CopyState) (dst src len : Nat) (got : Option Nat) (t : CopyState) : Prop :=
  match got with
  | some gotlen => ∃ k < len, gotlen = k + 1 ∧ FirstNul s.mem src k ∧ (∀ j ≤ k, s.Open dst src j) ∧
    t.mem = copiedFront s.mem dst src (k + 1)
  | none => ∀ j < len, s.Open dst src j ∧ s.mem (src + j) ≠ 0

theorem copystrLoop_spec (apart : dst + len ≤ src ∨ src + len ≤ dst) {turns i : Nat}
    (total : i + turns = len) (reached : Reached s dst src len i t) :
    (copystrLoop dst src turns i).wp t
      (fun got u => Confined s dst src len u ∧ LoopEnd s dst src len got u)
      (fun _ u => Confined s dst src len u ∧
        ∃ j < len, ¬s.Open dst src j ∧ ∀ i < j, s.mem (src + i) ≠ 0) never := by
  induction turns generalizing i t with
  | zero =>
    obtain rfl : i = len := total
    exact ⟨reached.confined,reached.copied⟩
  | succ turns ih =>
    have size : Width.byte.size * i = i := Nat.one_mul i
    have sizeNext : Width.byte.size * (i + 1) = i + 1 := Nat.one_mul (i + 1)
    have inside : Width.byte.size * (i + 1) ≤ len := by omega
    rw [copystrLoop,wp_bind]
    apply wp_ends (copyCell_confined (w := .byte) armed dstFits srcFits (Nat.mod_one dst)
      (Nat.mod_one src) inside reached.confined)
    · rintro _ u ⟨confined,cell,written⟩
      have here : s.Open dst src i := cell i (by omega) (by omega)
      have mem : u.mem = copiedFront s.mem dst src (i + 1) := by
        rw [size] at written
        have cell := @copiedFront_cell s.mem dst src len (by omega) .byte i inside
        rw [size,sizeNext] at cell
        rw [written,reached.mem,cell]
      have openUpTo : ∀ j ≤ i, s.Open dst src j := by
        intro j bound
        rcases Nat.lt_or_eq_of_le bound with before | rfl
        · exact (reached.copied j before).1
        · exact here
      -- the character is read again, and the copy has not changed it
      have same : u.mem (src + i) = s.mem (src + i) := by
        rw [mem,copiedFront,overwrite_outside _ _ (by omega)]
      rw [Width.byte.address_eq srcFits inside,size,wp_bind]
      apply wp_loadByte (confined.badfaultfunc.trans armed) (confined.canLoad.mpr here.1)
      have logged := confined.logLoad (w := .byte) (a := src + i) fun b member => by
        rw [mem_span] at member
        simp only [Width.size] at member
        omega
      rw [wp_ite,same]
      refine ⟨fun found => ?_,fun more => ?_⟩
      · exact ⟨logged,i,by omega,rfl,⟨found,fun j less => (reached.copied j less).2⟩,openUpTo,mem⟩
      · apply ih (by omega)
        refine ⟨logged,fun j less => ⟨openUpTo j (by omega),?_⟩,mem⟩
        rcases Nat.lt_or_eq_of_le (Nat.le_of_lt_succ less) with before | rfl
        · exact (reached.copied j before).2
        · exact more
    · rintro _ u ⟨confined,j,low,high,refused⟩
      obtain rfl : j = i := by omega
      exact ⟨confined,j,by omega,refused,fun k less => (reached.copied k less).2⟩

end Copy

end CopyState

/-! `copycheck` -/

section Check
variable {p len : Nat}

theorem copycheck_inside (some_ : 0 < len) (inside : p + len ≤ userTop) : copycheck p len = .ok len := by
  have top := userTop_eq
  rw [copycheck,u32_of_bounds (by omega) (by omega)]
  rw [if_neg (by omega),if_neg (by omega),if_neg (by omega)]

theorem copycheck_straddles (begins : p < userTop) (ends : userTop < p + len) (fits : p + len ≤ 2^32) :
    copycheck p len = .ok (userTop - p) := by
  have top := userTop_eq
  rw [copycheck,u32_of_bounds (by omega) (by omega),u32_of_bounds (by omega) (by omega)]
  rw [if_neg (by omega),if_neg (by omega),if_pos (by omega)]
  congr 1
  omega

theorem copycheck_kernel (begins : userTop ≤ p) : copycheck p len = .error .efault := by
  simp only [copycheck,ge_iff_le,if_pos begins,ite_self]

theorem copycheck_wraps (bound : len < 2^32) (wraps : 2^32 < p + len) (start : p < 2^32) :
    copycheck p len = .error .efault := by
  have top : u32 ((p : Int) + len - 1) = p + len - 1 - 2^32 := by
    rw [show (p : Int) + len - 1 = (p + len - 1 - 2^32) + 2^32 by omega,u32_add_period,
      u32_of_bounds (by omega) (by omega)]
    omega
  rw [copycheck,top,if_pos (by omega)]

theorem copycheck_empty (start : p < 2^32) : copycheck p 0 ≠ .ok 0 := by
  have top := userTop_eq
  rcases Nat.eq_zero_or_pos p with rfl | positive
  · rw [copycheck,show ((0 : Nat) : Int) + (0 : Nat) - 1 = -1 by rfl,← u32_add_period,
      u32_of_bounds (by omega) (by omega),u32_of_bounds (by omega) (by omega)]
    simp only [userTop_eq]
    decide
  · rw [copycheck,u32_of_bounds (by omega) (by omega),if_pos (by omega)]
    rintro ⟨⟩

theorem copycheck_error {code : Errno} (failed : copycheck p len = .error code) : code = .efault := by
  simp only [copycheck] at failed
  split at failed
  · cases failed
    rfl
  · split at failed
    · cases failed
      rfl
    · split at failed <;> cases failed

end Check

/-! Blocks -/

def UserBlock (accessible : Nat → Bool) (p len : Nat) : Prop :=
  p + len ≤ userTop ∧ ∀ i < len, accessible (p + i) = true

/-- Nothing above user space has been accessed by the instructions that go to user memory, and
`pcb_badfaultfunc` is NULL. -/
structure UserSide (accesses : CopyState → List Nat) (s t : CopyState) : Prop where
  below : ∀ a ∈ accesses t, a ∈ accesses s ∨ a < userTop
  cleared : t.badfaultfunc = false

/-- The call returns 0, with the block copied, if the user block is `legal`, and EFAULT otherwise. -/
def CopiesBlock (call : Exec CopyState Errno FatalFault Unit) (accesses : CopyState → List Nat)
    (legal : Prop) (s : CopyState) (dst src len : Nat) : Prop :=
  call.wp s
    (fun _ t => legal ∧ (∀ i < len, t.mem (dst + i) = s.mem (src + i)) ∧ UserSide accesses s t)
    (fun code t => code = .efault ∧ ¬legal ∧ UserSide accesses s t)
    fun _ _ => False

structure KernelBuffer (k len : Nat) : Prop where
  kernel : userTop ≤ k
  fits : k + len ≤ 2^32

section Blocks
variable {s : CopyState} {p k len : Nat} {accesses : CopyState → List Nat} {legal : Prop}
  {copy : Exec CopyState Longjmp FatalFault Nat}

theorem copyBlock_legal (some_ : 0 < len) (inside : p + len ≤ userTop)
    {ok : Unit → CopyState → Prop} {err : Errno → CopyState → Prop}
    (spec : copy.wp (s.setBadfaultfunc true) (fun _ t => ok () (t.setBadfaultfunc false))
      (fun _ t => err .efault (t.setBadfaultfunc false)) never) :
    (copyBlock p len copy).wp s ok err never := by
  rw [copyBlock,copycheck_inside some_ inside,wp_bind,wp_give_ok,if_neg (by simp)]
  apply wp_guarded
  rw [wp_bind]
  exact spec

theorem copyBlock_refused (start : p < 2^32) (bound : len < 2^32) (refused : len = 0 ∨ userTop < p + len) :
    (copyBlock p len copy).wp s never (fun code t => code = .efault ∧ t = s) never := by
  have different : copycheck p len ≠ .ok len := by
    rcases refused with rfl | outside
    · exact copycheck_empty start
    · rcases Nat.lt_or_ge p userTop with user | kernel
      · rcases Nat.lt_or_ge (2^32) (p + len) with wraps | fits
        · rw [copycheck_wraps bound wraps start]
          rintro ⟨⟩
        · rw [copycheck_straddles user outside fits]
          rintro ⟨⟩
          omega
      · rw [copycheck_kernel kernel]
        rintro ⟨⟩
  rw [copyBlock,wp_bind]
  cases checked : copycheck p len with
  | error code => exact ⟨copycheck_error checked,rfl⟩
  | ok stoplen =>
    have truncated : stoplen ≠ len := by
      rintro rfl
      exact different checked
    rw [wp_give_ok,if_pos truncated]
    exact ⟨rfl,rfl⟩

section
variable (idle : s.badfaultfunc = false) (start : p < 2^32)
include idle start

theorem copyBlock_copies {dst src : Nat}
    (bound : len < 2^32) (some_ : 0 < len) (range : legal → p + len ≤ userTop)
    (spec : p + len ≤ userTop → copy.wp (s.setBadfaultfunc true)
      (fun _ t => legal ∧ t.mem = copiedFront s.mem dst src len ∧
        ∀ a ∈ accesses (t.setBadfaultfunc false), a ∈ accesses s ∨ a < userTop)
      (fun _ t => ¬legal ∧ ∀ a ∈ accesses (t.setBadfaultfunc false), a ∈ accesses s ∨ a < userTop)
      never) :
    CopiesBlock (copyBlock p len copy) accesses legal s dst src len := by
  rcases Nat.lt_or_ge userTop (p + len) with outside | inside
  · apply wp_mono (copyBlock_refused start bound (.inr outside))
    · exact fun _ _ h => h.elim
    · rintro code t ⟨rfl,rfl⟩
      exact ⟨rfl,fun h => absurd (range h) (by omega),fun a => .inl,idle⟩
    · exact fun _ _ h => h
  · apply copyBlock_legal some_ inside
    apply wp_ends (spec inside)
    · rintro _ t ⟨accepted,copied,below⟩
      refine ⟨accepted,?_,below,rfl⟩
      intro i less
      show t.mem (dst + i) = _
      rw [copied,copiedFront,overwrite,if_pos (by omega),Nat.add_sub_cancel_left]
    · exact fun _ t reached => ⟨rfl,reached.1,reached.2,rfl⟩

theorem copyBlock_empty {dst src : Nat} :
    CopiesBlock (copyBlock p 0 copy) accesses legal s dst src 0 ↔ ¬legal := by
  apply wp_iff
  apply wp_mono (copyBlock_refused start (by decide) (.inl rfl))
  · exact fun _ _ h => h.elim
  · rintro code t ⟨rfl,rfl⟩
    exact ⟨fun h => h.2.1,fun refused => ⟨rfl,refused,fun a => .inl,idle⟩⟩
  · exact fun _ _ h => h.elim

theorem copyin_copies (bound : len < 2^32)
    (some_ : 0 < len) (buffer : KernelBuffer k (min len (userTop - p))) :
    CopiesBlock (copyin p k len) loads (UserBlock s.readable p len) s k p len := by
  apply copyBlock_copies idle start bound some_ And.left
  intro inside
  obtain ⟨kernel,fits⟩ := buffer
  have top := userTop_eq
  apply wp_ends (memcpy_confined (s := s.setBadfaultfunc true) rfl (by omega) (by omega) (by omega))
  · rintro _ t ⟨confined,open_,copied⟩
    exact ⟨⟨inside,fun i less => (open_ i less).1 (by omega)⟩,copied,
      confined.loads_below inside⟩
  · rintro _ t ⟨confined,j,less,refused⟩
    exact ⟨fun legal => refused ⟨fun _ => legal.2 j less,fun user => absurd user (by omega)⟩,
      confined.loads_below inside⟩

theorem copyout_copies (bound : len < 2^32)
    (some_ : 0 < len) (buffer : KernelBuffer k (min len (userTop - p))) :
    CopiesBlock (copyout k p len) stores (UserBlock s.writable p len) s p k len := by
  apply copyBlock_copies idle start bound some_ And.left
  intro inside
  obtain ⟨kernel,fits⟩ := buffer
  have top := userTop_eq
  apply wp_ends (memcpy_confined (s := s.setBadfaultfunc true) rfl (by omega) (by omega) (by omega))
  · rintro _ t ⟨confined,open_,copied⟩
    exact ⟨⟨inside,fun i less => (open_ i less).2 (by omega)⟩,copied,
      confined.stores_below inside⟩
  · rintro _ t ⟨confined,j,less,refused⟩
    exact ⟨fun legal => refused ⟨fun user => absurd user (by omega),fun _ => legal.2 j less⟩,
      confined.stores_below inside⟩

end

/-- `copyin` and `copyout` accept just the user blocks, except that they refuse the empty ones. -/
theorem copyin_copyout_iff (s : CopyState) (p k len : Nat) (idle : s.badfaultfunc = false)
    (start : p < 2^32) (bound : len < 2^32) (buffer : KernelBuffer k (min len (userTop - p))) :
    (CopiesBlock (copyin p k len) loads (UserBlock s.readable p len) s k p len ↔
      ¬(len = 0 ∧ p ≤ userTop)) ∧
    (CopiesBlock (copyout k p len) stores (UserBlock s.writable p len) s p k len ↔
      ¬(len = 0 ∧ p ≤ userTop)) := by
  rcases Nat.eq_zero_or_pos len with rfl | some_
  · have empty (accessible : Nat → Bool) : ¬UserBlock accessible p 0 ↔ ¬((0 : Nat) = 0 ∧ p ≤ userTop) := by
      simp [UserBlock]
    exact ⟨(copyBlock_empty idle start).trans (empty _),(copyBlock_empty idle start).trans (empty _)⟩
  · have unproblematic : ¬(len = 0 ∧ p ≤ userTop) := by omega
    simp only [unproblematic,not_false_eq_true,iff_true]
    exact ⟨copyin_copies idle start bound some_ buffer,copyout_copies idle start bound some_ buffer⟩

def openMachine : CopyState where
  mem a := .ofNat a
  readable _ := true
  writable _ := true
  badfaultfunc := false
  loads := []
  stores := []

/-- A word is copied in and out. -/
theorem copyin_copyout_word :
    CopiesBlock (copyin 4096 userTop 4) loads (UserBlock openMachine.readable 4096 4) openMachine
      userTop 4096 4 ∧
    CopiesBlock (copyout userTop 4096 4) stores (UserBlock openMachine.writable 4096 4) openMachine
      4096 userTop 4 := by
  have both := copyin_copyout_iff openMachine 4096 userTop 4 rfl (by decide) (by decide)
    ⟨Nat.le_refl _,by decide⟩
  exact ⟨both.1.mpr (by decide),both.2.mpr (by decide)⟩

/-- Copying nothing from, or to, an address that can be accessed fails. -/
theorem copyin_copyout_empty_efault :
    UserBlock openMachine.readable 4096 0 ∧ (copyin 4096 userTop 0 openMachine).1 = .err .efault ∧
    (copyout userTop 4096 0 openMachine).1 = .err .efault ∧
    ¬CopiesBlock (copyin 4096 userTop 0) loads (UserBlock openMachine.readable 4096 0) openMachine
      userTop 4096 0 ∧
    ¬CopiesBlock (copyout userTop 4096 0) stores (UserBlock openMachine.writable 4096 0) openMachine
      4096 userTop 0 := by
  have legal (accessible : Nat → Bool) : UserBlock accessible 4096 0 := ⟨by decide,by simp⟩
  refine ⟨legal _,by decide +kernel,by decide +kernel,?_,?_⟩
  · exact fun copies => (copyBlock_empty rfl (by decide)).mp copies (legal _)
  · exact fun copies => (copyBlock_empty rfl (by decide)).mp copies (legal _)

end Blocks

/-! Strings -/

/-- A string of `k` characters that can be copied before either limit is reached. -/
structure UserString (accessible : Nat → Bool) (mem : Nat → UInt8) (user src len k : Nat) : Prop where
  nul : FirstNul mem src k
  fits : k < len
  below : user + k < userTop
  open_ : ∀ j ≤ k, accessible (user + j) = true

/-- All `len` characters can be copied, and the string does not end there. -/
structure TooLong (accessible : Nat → Bool) (mem : Nat → UInt8) (user src len : Nat) : Prop where
  below : user + len ≤ userTop
  more : ∀ j < len, accessible (user + j) = true ∧ mem (src + j) ≠ 0

structure WithinLimits (user dst src len : Nat) (s t : CopyState) : Prop where
  loads : ∀ a ∈ t.loads, a ∈ s.loads ∨ src ≤ a ∧ a < src + min len (userTop - user)
  stores : ∀ a ∈ t.stores, a ∈ s.stores ∨ dst ≤ a ∧ a < dst + min len (userTop - user)

section Strings
variable {s : CopyState} {accessible : Nat → Bool} {user dst src len stop : Nat}

theorem UserString.not_tooLong (found : UserString accessible s.mem user src len k) :
    ¬TooLong accessible s.mem user src len :=
  fun tooLong => (tooLong.more k found.fits).2 found.nul.1

def CopystrEnd (s : CopyState) (dst src maxlen stoplen : Nat) (result : Except Errno Nat)
    (t : CopyState) : Prop :=
  match result with
  | .ok gotlen => LoopEnd s dst src (min maxlen stoplen) (some gotlen) t
  | .error code => LoopEnd s dst src (min maxlen stoplen) none t ∧
    code = if stoplen < maxlen then .efault else .enametoolong

theorem copystr_spec (armed : s.badfaultfunc = true) (dstFits : dst + min len stop ≤ 2^32)
    (srcFits : src + min len stop ≤ 2^32)
    (apart : dst + min len stop ≤ src ∨ src + min len stop ≤ dst) :
    (copystr dst src len stop).wp s
      (fun result t => Confined s dst src (min len stop) t ∧ CopystrEnd s dst src len stop result t)
      (fun _ t => Confined s dst src (min len stop) t ∧
        ∃ j < min len stop, ¬s.Open dst src j ∧ ∀ i < j, s.mem (src + i) ≠ 0) never := by
  have fresh : Reached s dst src (min len stop) 0 s :=
    ⟨.refl s dst src _,by simp,(overwrite_none s.mem dst _).symm⟩
  rw [copystr,wp_bind]
  apply wp_imp (copystrLoop_spec armed dstFits srcFits apart (Nat.zero_add _) fresh)
  rintro got t ⟨confined,ended⟩
  cases got with
  | some gotlen => exact ⟨confined,ended⟩
  | none =>
    rw [wp_ite]
    refine ⟨fun cut => ⟨confined,ended,?_⟩,fun whole => ⟨confined,ended,?_⟩⟩
    · rw [if_pos cut]
    · rw [if_neg whole]

theorem copycheck_user (some_ : 0 < len) (fits : user + len ≤ 2^32) (begins : user < userTop) :
    ∃ stop, copycheck user len = .ok stop ∧ min len stop = min len (userTop - user) ∧
      (stop < len ↔ userTop < user + len) := by
  rcases Nat.lt_or_ge userTop (user + len) with straddles | inside
  · exact ⟨_,copycheck_straddles begins straddles fits,rfl,by omega⟩
  · exact ⟨_,copycheck_inside some_ inside,by omega,by omega⟩

theorem copyString_spec (some_ : 0 < len) (fits : user + len ≤ 2^32)
    (dstFits : dst + min len (userTop - user) ≤ 2^32) (srcFits : src + min len (userTop - user) ≤ 2^32)
    (apart : dst + min len (userTop - user) ≤ src ∨ src + min len (userTop - user) ≤ dst)
    (open_ : ∀ j < min len (userTop - user), s.Open dst src j ↔ accessible (user + j) = true) :
    (copyString user len (copystr dst src len)).wp s
      (fun actual t => (∃ k, actual = k + 1 ∧ UserString accessible s.mem user src len k ∧
        t.mem = copiedFront s.mem dst src (k + 1)) ∧ WithinLimits user dst src len s t)
      (fun code t => (∀ k, ¬UserString accessible s.mem user src len k) ∧
        (code = .enametoolong ∧ TooLong accessible s.mem user src len ∨
          code = .efault ∧ ¬TooLong accessible s.mem user src len) ∧ WithinLimits user dst src len s t)
      never := by
  rcases Nat.lt_or_ge user userTop with begins | kernel
  · obtain ⟨stop,checked,limit,cut⟩ := copycheck_user some_ fits begins
    rw [copyString,checked,wp_bind,wp_give_ok]
    apply wp_guarded
    rw [← limit] at dstFits srcFits apart open_
    apply wp_ends (copystr_spec (s := s.setBadfaultfunc true) rfl dstFits srcFits apart)
    · rintro result t ⟨confined,ended⟩
      have limits : WithinLimits user dst src len s (t.setBadfaultfunc false) := by
        constructor
        · exact limit ▸ confined.loads
        · exact limit ▸ confined.stores
      cases result with
      | ok gotlen =>
        obtain ⟨k,less,rfl,nul,allowed,mem⟩ := ended
        refine ⟨⟨k,rfl,⟨nul,by omega,by omega,fun j bound => ?_⟩,mem⟩,limits⟩
        exact (open_ j (by omega)).mp (allowed j bound)
      | error code =>
        obtain ⟨ended,rfl⟩ := ended
        refine ⟨fun k found => (ended k ?_).2 found.nul.1,?_,limits⟩
        · have := found.fits
          have := found.below
          omega
        · split
          · rename_i stopped
            exact .inr ⟨rfl,fun tooLong => absurd tooLong.below (by omega)⟩
          · rename_i whole
            refine .inl ⟨rfl,by omega,fun j less => ?_⟩
            have next := ended j (by omega)
            exact ⟨(open_ j (by omega)).mp next.1,next.2⟩
    · rintro _ t ⟨confined,j,less,refused,before⟩
      have closed : accessible (user + j) ≠ true := fun allowed => refused ((open_ j less).mpr allowed)
      refine ⟨fun k found => ?_,.inr ⟨rfl,fun tooLong => closed (tooLong.more j (by omega)).1⟩,?_⟩
      · rcases Nat.lt_or_ge k j with early | late
        · exact before k early found.nul.1
        · exact closed (found.open_ j late)
      · constructor
        · exact limit ▸ confined.loads
        · exact limit ▸ confined.stores
  · rw [copyString,copycheck_kernel kernel,wp_bind,wp_give_error]
    refine ⟨fun k found => ?_,.inr ⟨rfl,fun tooLong => ?_⟩,fun _ => .inl,fun _ => .inl⟩
    · have := found.below
      omega
    · have := tooLong.below
      omega

/-- `copyoutstr` stops at the NUL or where it may not write, and counts the NUL. Its error says
whether the string was too long, and nothing beyond the limits is written. -/
theorem copyoutstr_spec {p k : Nat} (some_ : 0 < len) (fits : p + len ≤ 2^32)
    (buffer : KernelBuffer k (min len (userTop - p))) :
    (copyoutstr k p len).wp s
      (fun actual t => (∃ n, actual = n + 1 ∧ UserString s.writable s.mem p k len n ∧
        t.mem = copiedFront s.mem p k (n + 1)) ∧ WithinLimits p p k len s t)
      (fun code t => (∀ n, ¬UserString s.writable s.mem p k len n) ∧
        (code = .enametoolong ∧ TooLong s.writable s.mem p k len ∨
          code = .efault ∧ ¬TooLong s.writable s.mem p k len) ∧ WithinLimits p p k len s t)
      never := by
  obtain ⟨kernel,room⟩ := buffer
  have top := userTop_eq
  apply copyString_spec some_ fits (by omega) room (by omega)
  intro j less
  constructor
  · exact fun open_ => open_.2 (by omega)
  · exact fun writable => ⟨fun below => absurd below (by omega),fun _ => writable⟩

theorem copyoutstr_spec_last_byte :
    (copyoutstr userTop (userTop - 1) 8).wp { openMachine with mem := fun _ => 0 } (fun actual _ => 0 < actual)
      never never := by
  have nul : UserString (fun _ => true) (fun _ => 0) (userTop - 1) userTop 8 0 :=
    ⟨⟨rfl,by simp⟩,by decide,by decide,fun _ _ => rfl⟩
  exact wp_ends (copyoutstr_spec (by decide) (by decide) ⟨Nat.le_refl _,by decide⟩)
    (fun _ _ ⟨⟨n,same,_⟩,_⟩ => same ▸ Nat.succ_pos n) fun _ _ h => h.1 0 nul

/-- `copyinstr` stops at the NUL, at the end of the buffer or at the end of user space, and its
result says at which. -/
theorem copyinstr_stops (s : CopyState) (p dest len : Nat) (some_ : 1 ≤ len) (fits : p + len - 1 < 2^32)
    (buffer : KernelBuffer dest (min len (userTop - p))) :
    (copyinstr p dest len).wp s
      (fun actual t => (∃ k, actual = k + 1 ∧ UserString s.readable s.mem p p len k ∧
          ∀ j ≤ k, t.mem (dest + j) = s.mem (p + j)) ∧
        ¬TooLong s.readable s.mem p p len ∧
        (∀ a ∈ t.loads, a ∈ s.loads ∨ p ≤ a ∧ a < min (p + len) userTop) ∧
        ∀ a ∈ t.stores, a ∈ s.stores ∨ dest ≤ a ∧ a < dest + len)
      (fun code t => (∀ k, ¬UserString s.readable s.mem p p len k) ∧
        (code = .enametoolong ∧ TooLong s.readable s.mem p p len ∨
          code = .efault ∧ ¬TooLong s.readable s.mem p p len) ∧
        (∀ a ∈ t.loads, a ∈ s.loads ∨ p ≤ a ∧ a < min (p + len) userTop) ∧
        ∀ a ∈ t.stores, a ∈ s.stores ∨ dest ≤ a ∧ a < dest + len)
      fun _ _ => False := by
  obtain ⟨kernel,room⟩ := buffer
  have top := userTop_eq
  have open_ : ∀ j < min len (userTop - p), s.Open dest p j ↔ s.readable (p + j) = true := by
    intro j less
    constructor
    · exact fun open_ => open_.1 (by omega)
    · exact fun readable => ⟨fun _ => readable,fun below => absurd below (by omega)⟩
  have loads {t} (limits : WithinLimits p dest p len s t) :
      ∀ a ∈ t.loads, a ∈ s.loads ∨ p ≤ a ∧ a < min (p + len) userTop :=
    fun a member => (limits.loads a member).imp_right fun inside => by omega
  have stores {t} (limits : WithinLimits p dest p len s t) :
      ∀ a ∈ t.stores, a ∈ s.stores ∨ dest ≤ a ∧ a < dest + len :=
    fun a member => (limits.stores a member).imp_right fun inside => by omega
  apply wp_ends (copyString_spec some_ (by omega) room (by omega) (by omega) open_)
  · rintro actual t ⟨⟨k,rfl,found,mem⟩,limits⟩
    refine ⟨⟨k,rfl,found,fun j bound => ?_⟩,found.not_tooLong,loads limits,stores limits⟩
    rw [mem,copiedFront,overwrite,if_pos (by omega),Nat.add_sub_cancel_left]
  · rintro code t ⟨none_,codes,limits⟩
    exact ⟨none_,codes,loads limits,stores limits⟩

/-- The last user byte is a NUL: an empty string there can be read, though the buffer is longer than
what is left of user space. -/
theorem copyinstr_stops_last_byte :
    (copyinstr (userTop - 1) userTop 8 { openMachine with mem := fun _ => 0 }).1 = .ok 1 := by
  have stops := copyinstr_stops { openMachine with mem := fun _ => 0 } (userTop - 1) userTop 8
    (by decide) (by decide) ⟨Nat.le_refl _,by decide⟩
  have nul : UserString (fun _ => true) (fun _ => 0) (userTop - 1) (userTop - 1) 8 0 :=
    ⟨⟨rfl,by simp⟩,by decide,by decide,fun _ _ => rfl⟩
  rcases ran : copyinstr (userTop - 1) userTop 8 { openMachine with mem := fun _ => 0 } with ⟨outcome,t⟩
  cases outcome with
  | ok actual =>
    obtain ⟨⟨k,rfl,found,_⟩,_⟩ := wp_ok stops ran
    have : k = 0 := by
      have := found.below
      have := userTop_eq
      omega
    rw [this]
  | err code => exact absurd nul ((wp_err stops ran).1 0)
  | panic site => exact (wp_halt stops ran).elim

end Strings

end Os161
