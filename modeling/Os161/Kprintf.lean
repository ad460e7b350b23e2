import Os161.SfsFormat
import Os161.Synch

/-! `kprintf` with the code it runs through: `__vprintf` for the text, `putch` for each
character, the lock around them, and the `DEBUG` calls that the lock and thread operations make
on the way, which are calls of `kprintf` again. The model follows one thread. What other threads
and interrupts do to it is how often a wait goes to sleep. -/
namespace Os161
namespace Kprintf

def bytes (s : String) : List UInt8 := s.toList.map Char.toUInt8

/-! The text: `lib/libc/__printf.c` -/

/-- A `va_list`: the words from the next argument on, and the string at an address. -/
structure VaList where
  words : Nat → UInt32
  string : UInt32 → CString

def VaList.arg (ap : VaList) : UInt32 × VaList :=
  (ap.words 0, { ap with words := fun i => ap.words (i + 1) })

inductive PfSize where
  | intsz | longsz
  deriving DecidableEq, Repr

/-- `PF`, with what `sendfunc` was handed so far. -/
structure Pf where
  sent : List UInt8
  ap : VaList
  charcount : Int
  inPct : Bool
  size : PfSize
  num : UInt32
  sign : Bool
  spacing : Int
  rightspc : Bool
  fillchar : UInt8
  base : Nat
  baseprefix : Bool
  altformat : Bool

namespace Pf

def print (txt : List UInt8) (pf : Pf) : Pf :=
  { pf with sent := pf.sent ++ txt, charcount := i32 (pf.charcount + txt.length) }

def endfield (pf : Pf) : Pf :=
  { pf with
    inPct := false, size := .intsz, num := 0, sign := false, spacing := 0, rightspc := false
    fillchar := 32, base := 0, baseprefix := false, altformat := false }

/-- The last case is a digit other than 0. -/
def modifier (ch : UInt8) (pf : Pf) : Pf :=
  if ch ∈ bytes "#" then { pf with altformat := true }
  else if ch ∈ bytes "-" then { pf with rightspc := true }
  else if ch ∈ bytes "lq" then { pf with size := .longsz }
  else if ch ∈ bytes "0" then
    if 0 < pf.spacing then { pf with spacing := i32 (pf.spacing * 10) }
    else { pf with fillchar := 48 }
  else { pf with spacing := i32 (pf.spacing * 10 + (ch.toNat - 48)) }

def getnum (ch : UInt8) (pf : Pf) : Pf :=
  let (word, ap) := pf.ap.arg
  if ch ∈ bytes "d" ∧ 2^31 ≤ word.toNat then { pf with ap := ap, sign := true, num := -word }
  else { pf with ap := ap, num := word }

def setbase (ch : UInt8) (pf : Pf) : Pf :=
  { pf with
    base := if ch ∈ bytes "du" then 10 else if ch ∈ bytes "xp" then 16 else 8
    baseprefix := pf.baseprefix || pf.altformat || decide (ch ∈ bytes "p") }

def fill : Nat → Pf → Pf
  | 0, pf => pf
  | spc + 1, pf => fill spc (pf.print [pf.fillchar])

/-- `__pf_printstuff`; the first two texts are the sign and the base, if printed. -/
def printstuff (sign base stuff : List UInt8) (pf : Pf) : Pf :=
  let len := sign.length + base.length + stuff.length
  let spc := (pf.spacing - len).toNat
  let pf := if pf.rightspc = false ∧ pf.fillchar ≠ 48 then pf.fill spc else pf
  let pf := (pf.print sign).print base
  let pf := if pf.rightspc = false ∧ pf.fillchar = 48 then pf.fill spc else pf
  let pf := pf.print stuff
  if pf.rightspc then pf.fill spc else pf

def printnum (pf : Pf) : Pf :=
  let digits := (Nat.toDigits pf.base pf.num.toNat).map Char.toUInt8
  let bprefix :=
    if pf.baseprefix ∧ pf.base = 16 then bytes "0x"
    else if pf.baseprefix ∧ pf.base = 8 then bytes "0" else []
  pf.printstuff (if pf.sign then bytes "-" else []) bprefix digits

/-- `%s`, where the null pointer prints as `(null)`. -/
def string (pf : Pf) : Pf :=
  let (word, ap) := pf.ap.arg
  { pf with ap := ap }.printstuff [] [] (if word = 0 then bytes "(null)" else (ap.string word).chars)

/-- `%c`, `%%` and what is no format. A `%c` of the character NUL prints the empty string. -/
def single (ch : UInt8) (pf : Pf) : Pf :=
  if ch ∈ bytes "c" then
    let (word, ap) := pf.ap.arg
    { pf with ap := ap }.printstuff [] [] (if word.toUInt8 = 0 then [] else [word.toUInt8])
  else pf.printstuff [] [] [ch]

def send (ch : UInt8) (pf : Pf) : Pf :=
  if pf.inPct = false ∧ ch ≠ 37 then pf.print [ch]
  else if pf.inPct = false then { pf with inPct := true }
  else if ch ∈ bytes "#-ql0123456789" then pf.modifier ch
  else if ch ∈ bytes "doupx" then ((pf.getnum ch).setbase ch).printnum.endfield
  else if ch ∈ bytes "s" then pf.string.endfield
  else (pf.single ch).endfield

end Pf

/-- `__vprintf`: what `func` is handed, and the number of characters. -/
def vprintf (format : CString) (ap : VaList) : List UInt8 × Int :=
  let pf : Pf := Pf.endfield
    { sent := [], ap := ap, charcount := 0, inPct := false, size := .intsz, num := 0, sign := false
      spacing := 0, rightspc := false, fillchar := 32, base := 0, baseprefix := false
      altformat := false }
  let done := format.chars.foldl (fun pf ch => pf.send ch) pf
  (done.sent, done.charcount)

def literal (s : String) : CString where
  chars := (bytes s).filter (· ≠ 0)
  noNul nul := absurd (List.of_mem_filter nul) (by decide)

def noArgs : VaList := ⟨fun _ => 0,fun _ => literal ""⟩

def Pf.Counted (pf : Pf) : Prop := pf.charcount = i32 pf.sent.length

theorem Pf.Counted.print {pf : Pf} (counted : pf.Counted) (txt : List UInt8) :
    (pf.print txt).Counted := by
  rw [Counted] at counted ⊢
  simp only [Pf.print,counted,List.length_append]
  push_cast
  exact i32_i32_add _ _

theorem Pf.Counted.fill {pf : Pf} (counted : pf.Counted) (spc : Nat) : (pf.fill spc).Counted := by
  induction spc generalizing pf with
  | zero => exact counted
  | succ spc ih => exact ih (counted.print _)

theorem Pf.Counted.printstuff {pf : Pf} (counted : pf.Counted) (sign base stuff : List UInt8) :
    (pf.printstuff sign base stuff).Counted := by
  have filled : ∀ {pf : Pf} (c : Prop) [Decidable c] (spc : Nat), pf.Counted →
      (if c then pf.fill spc else pf).Counted := by
    intro pf c _ spc counted
    split
    · exact counted.fill spc
    · exact counted
  exact filled _ _ ((filled _ _ (((filled _ _ counted).print sign).print base)).print stuff)

theorem Pf.Counted.send {pf : Pf} (counted : pf.Counted) (ch : UInt8) : (pf.send ch).Counted := by
  have fetched : { pf with ap := pf.ap.arg.2 }.Counted := counted
  rw [Pf.send]
  split_ifs
  · exact counted.print _
  · exact counted
  · rw [Pf.modifier]
    split_ifs <;> exact counted
  · have number : ((pf.getnum ch).setbase ch).Counted := by
      simp only [Pf.getnum,Pf.setbase]
      split_ifs <;> exact counted
    exact number.printstuff _ _ _
  · exact fetched.printstuff [] [] _
  · rw [Pf.single]
    split_ifs
    · exact fetched.printstuff [] [] _
    · exact counted.printstuff [] [] [ch]

theorem vprintf_count (format : CString) (ap : VaList) :
    (vprintf format ap).2 = i32 (vprintf format ap).1.length := by
  have run : ∀ (chars : List UInt8) (pf : Pf), pf.Counted →
      (chars.foldl (fun pf ch => pf.send ch) pf).Counted := by
    intro chars
    induction chars with
    | nil => exact fun _ counted => counted
    | cons ch rest ih => exact fun pf counted => ih _ (counted.send ch)
  have start : (0 : Int) = i32 0 := (i32_of_bounds (by decide) (by decide)).symm
  exact run _ _ start

example : (vprintf (literal "%-4d|%#06x|%5%") ⟨fun i => if i = 0 then -7 else 255,fun _ => ⟨[],
    List.not_mem_nil⟩⟩).1 = bytes "-7  |0x00ff|    %" := by
  decide +kernel

/-! The call -/

inductive Halt where
  | delayedFull | inInterrupt | curspl | lockNull
  deriving DecidableEq, Repr

/-- The ways a call does not end: it is still running at the given depth of nested calls, or it
sleeps on a lock that nobody will release. -/
inductive Endless where
  | depth | asleep
  deriving DecidableEq, Repr

/-- The globals that `kprintf` and what it calls read. -/
structure Kern where
  dbflags : UInt32
  curspl : Nat
  inInterrupt : Bool
  curthread : Tid
  kprintfLock : Option Lock
  -- `the_console`, with the characters it was sent
  console : Option (List UInt8)
  -- `delayed_outbuf` up to `delayed_outbuf_pos`
  delayed : { out : List UInt8 // out.length ≤ 1024 }
  -- the waits to come: an entry for each time one sleeps, since others hold what it waits for,
  -- with the number of zombies found after the switch back
  waits : Nat → List Nat

abbrev Kp (α : Type) := Exec Kern Endless Halt α

abbrev Printf := CString → VaList → Kp Int

def dbThreads : UInt32 := 0x010

section
variable (kprintf : Printf)

/-- The macro `DEBUG`, without arguments for the format. -/
def debug (d : UInt32) (fmt : String) : Kp Unit := do
  if (← read).dbflags &&& d ≠ 0 then
    let _ ← kprintf (literal fmt) noArgs
    pure ()
  else pure ()

/-- `splx`; the result is the old level. -/
def splx (newspl : Nat) : Kp Nat := do
  let s ← read
  put { s with curspl := newspl }
  pure s.curspl

def splhigh : Kp Nat := splx 15

/-- `thread_destroy`, up to what it frees. -/
def threadDestroy : Kp Unit := debug kprintf dbThreads "Thread Destoryed\n"

def exorcise (zombies : Nat) : Kp Unit := do
  assert (0 < (← read).curspl) .curspl
  let _ ← loop (fun _ _ => threadDestroy kprintf) zombies 0 ()
  debug kprintf dbThreads "Exorcised (Removed) Zombie Threads\n"

/-- `mi_switch` of a thread that is picked again, with the zombies there are then. -/
def miSwitch (zombies : Nat) : Kp Unit := do
  assert (0 < (← read).curspl) .curspl
  debug kprintf dbThreads "Completed context switch\n"
  exorcise kprintf zombies

def threadSleep (zombies : Nat) : Kp Unit := do
  assert (!(← read).inInterrupt) .inInterrupt
  miSwitch kprintf zombies

/-- A loop `while (...) thread_sleep(...)`. -/
def sleeps : List Nat → Kp Unit
  | [] => pure ()
  | zombies :: rest => do
    threadSleep kprintf zombies
    sleeps rest

def wait : Kp Unit := do
  let s ← read
  put { s with waits := fun i => s.waits (i + 1) }
  sleeps kprintf (s.waits 0)

def proberen : Kp Unit := do
  assert (!(← read).inInterrupt) .inInterrupt
  let spl ← splhigh
  wait kprintf
  let _ ← splx spl
  pure ()

def send (ch : UInt8) : Kp Unit :=
  modify fun s => { s with console := s.console.map (· ++ [ch]) }

theorem delayed_room {delayed : List UInt8} (room : delayed.length < 1024) (ch : UInt8) :
    (delayed ++ [ch]).length ≤ 1024 := by
  rw [List.length_append,List.length_singleton]
  exact room

def putchDelayed (ch : UInt8) : Kp Unit := do
  let s ← read
  if room : s.delayed.val.length < 1024 then
    put { s with delayed := ⟨s.delayed.val ++ [ch],delayed_room room ch⟩ }
  else panic .delayedFull

def putchIntr (ch : UInt8) : Kp Unit := do
  proberen kprintf
  send ch

def putch (ch : UInt8) : Kp Unit := do
  let s ← read
  if s.console = none then putchDelayed ch
  else if s.inInterrupt ∨ 0 < s.curspl then send ch
  else putchIntr kprintf ch

def consoleSend : List UInt8 → Kp Unit
  | [] => pure ()
  | ch :: rest => do
    putch kprintf ch
    consoleSend rest

/-- Taking the lock behind the waiting loop of `lock_acquire`. Here it can only be taken if the
thread holds it itself, or somebody who never gives it back. -/
def lockTake : Kp Unit := do
  let s ← read
  match s.kprintfLock with
  | none => panic .lockNull
  | some lock =>
    if lock.available = 0 then fail .asleep
    else put { s with kprintfLock := some ⟨0,some s.curthread⟩ }

def lockAcquire : Kp Unit := do
  let spl ← splhigh
  wait kprintf
  lockTake
  let _ ← splx spl
  pure ()

def lockGive : Kp Unit := do
  let s ← read
  match s.kprintfLock with
  | none => panic .lockNull
  | some lock =>
    if lock.holder = some s.curthread then put { s with kprintfLock := some ⟨1,none⟩ }
    else pure ()

def lockRelease : Kp Unit := do
  let spl ← splhigh
  lockGive
  let _ ← splx spl
  debug kprintf dbThreads "Lock Released\n"

/-- `kprintf_lock != NULL && !in_interrupt && curspl==0` -/
def Kern.locks (s : Kern) : Bool := s.kprintfLock.isSome && !s.inInterrupt && s.curspl == 0

def locked (call : Kp Unit) : Kp Unit := do
  if (← read).locks then call else pure ()

end

/-- `kprintf`, for calls nested at most `depth` deep. -/
def kprintf : Nat → Printf
  | 0, _, _ => fail .depth
  | depth + 1, fmt, ap => do
    locked (lockAcquire (kprintf depth))
    consoleSend (kprintf depth) (vprintf fmt ap).1
    locked (lockRelease (kprintf depth))
    pure (vprintf fmt ap).2

def Finishes (s : Kern) (fmt : CString) (ap : VaList) : Prop :=
  ∃ depth chars t, kprintf depth fmt ap s = (.ok chars, t)

def Kern.Threads (s : Kern) : Prop := s.dbflags &&& dbThreads ≠ 0

structure Setting (s t : Kern) : Prop where
  dbflags : t.dbflags = s.dbflags
  curspl : t.curspl = s.curspl
  inInterrupt : t.inInterrupt = s.inInterrupt
  curthread : t.curthread = s.curthread
  kprintfLock : t.kprintfLock = s.kprintfLock
  console : t.console = none ↔ s.console = none

/-- A wait, or a part of one: if `DB_THREADS` is off it prints nothing. -/
structure Waited (s t : Kern) : Prop extends Setting s t where
  silent : ¬ s.Threads → t.delayed = s.delayed

theorem Setting.refl (s : Kern) : Setting s s := ⟨rfl,rfl,rfl,rfl,rfl,Iff.rfl⟩

theorem Setting.trans {s t u : Kern} (first : Setting s t) (second : Setting t u) : Setting s u where
  dbflags := second.dbflags.trans first.dbflags
  curspl := second.curspl.trans first.curspl
  inInterrupt := second.inInterrupt.trans first.inInterrupt
  curthread := second.curthread.trans first.curthread
  kprintfLock := second.kprintfLock.trans first.kprintfLock
  console := second.console.trans first.console

theorem Setting.threads {s t : Kern} (same : Setting s t) : t.Threads ↔ s.Threads := by
  rw [Kern.Threads,Kern.Threads,same.dbflags]

theorem Waited.refl (s : Kern) : Waited s s := ⟨Setting.refl s,fun _ => rfl⟩

theorem Waited.trans {s t u : Kern} (first : Waited s t) (second : Waited t u) : Waited s u where
  toSetting := first.toSetting.trans second.toSetting
  silent off := (second.silent (mt first.threads.mp off)).trans (first.silent off)

section
variable {s : Kern} (k : Printf) (depth : Nat)

theorem consoleSend_delayed (text : List UInt8) (detached : s.console = none) :
    (consoleSend k text).wp s
      (fun _ t => Setting s t ∧ t.delayed.val.length = s.delayed.val.length + text.length) never
      fun _ _ => 1024 < s.delayed.val.length + text.length := by
  induction text generalizing s with
  | nil => exact ⟨Setting.refl s,rfl⟩
  | cons ch rest ih =>
    rw [consoleSend,wp_bind,putch,wp_bind,wp_read,if_pos detached,putchDelayed,
      wp_bind,wp_read]
    by_cases room : s.delayed.val.length < 1024
    · rw [dif_pos room,wp_put]
      refine wp_mono (ih detached) ?_ (fun _ _ h => h) ?_
      · rintro _ t ⟨same,length⟩
        simp only [List.length_append,List.length_cons,List.length_nil] at length ⊢
        exact ⟨⟨same.dbflags,same.curspl,same.inInterrupt,same.curthread,same.kprintfLock,
          same.console⟩,by omega⟩
      · intro _ t full
        simp only [List.length_append,List.length_cons,List.length_nil] at full ⊢
        omega
    · rw [dif_neg room]
      simp only [List.length_cons,wp_panic]
      omega

theorem send_wp (ch : UInt8) : (send ch).wp s (fun _ t => Setting s t) never
    never := by
  refine ⟨rfl,rfl,rfl,rfl,rfl,?_⟩
  simp

theorem consoleSend_polled (text : List UInt8) (attached : s.console ≠ none)
    (off : s.inInterrupt ∨ 0 < s.curspl) :
    (consoleSend k text).wp s (fun _ t => Setting s t) never never := by
  induction text generalizing s with
  | nil => exact Setting.refl s
  | cons ch rest ih =>
    simp only [consoleSend,putch,wp_bind,wp_read,attached,if_neg,off,if_pos,
      not_false_eq_true]
    refine wp_imp (send_wp ch) ?_
    intro _ t same
    refine wp_imp (ih ?_ ?_) (fun _ _ next => same.trans next)
    · exact mt same.console.mp attached
    · rwa [same.inInterrupt,same.curspl]

theorem kprintf_off (fmt : CString) (ap : VaList) (off : s.inInterrupt ∨ 0 < s.curspl) :
    (kprintf depth fmt ap).wp s
      (fun _ t => Setting s t ∧
        (s.console ≠ none ∨ s.delayed.val.length + (vprintf fmt ap).1.length ≤ 1024))
      (fun e _ => e = .depth ∧ depth = 0)
      fun _ _ => s.console = none ∧ 1024 < s.delayed.val.length + (vprintf fmt ap).1.length := by
  have noLock : ∀ t : Kern, t.inInterrupt ∨ 0 < t.curspl → t.locks = false := by
    rintro t (h | h)
    · simp [Kern.locks,h]
    · simp [Kern.locks,show t.curspl ≠ 0 by omega]
  cases depth with
  | zero => exact ⟨rfl,rfl⟩
  | succ depth =>
    simp only [kprintf,locked,wp_bind,wp_read,noLock s off,Bool.false_eq_true,
      if_false,wp_pure]
    have after : ∀ t, Setting s t → t.locks = false := fun t same =>
      noLock t (by rwa [same.inInterrupt,same.curspl])
    by_cases attached : s.console = none
    · refine wp_mono (consoleSend_delayed _ _ attached) ?_ (fun _ _ h => h.elim)
        fun _ _ full => ⟨attached,full⟩
      rintro _ t ⟨same,length⟩
      have fits := t.delayed.property
      simp only [after t same,Bool.false_eq_true,if_false,wp_pure]
      exact ⟨same,.inr (by omega)⟩
    · refine wp_total (consoleSend_polled _ _ attached off) ?_
      intro _ t same
      simp only [after t same,Bool.false_eq_true,if_false,wp_pure]
      exact ⟨same,.inl attached⟩

end

/-- What every part of a wait does: it comes back to the same setting, or, with `DB_THREADS` on,
one of the messages on the way is too deep or has no room. -/
def Passes (call : Kp Unit) (s : Kern) : Prop :=
  call.wp s (fun _ t => Waited s t) (fun e _ => s.Threads ∧ e = .depth)
    fun _ _ => s.Threads ∧ s.console = none

section
variable {s : Kern} (depth : Nat)

theorem Passes.bind {call next : Kp Unit} (first : Passes call s)
    (second : ∀ t, Waited s t → Passes next t) : Passes (do call; next) s := by
  rw [Passes,wp_bind]
  refine wp_imp first ?_
  intro _ t waited
  refine wp_mono (second t waited) (fun _ _ next => waited.trans next) ?_ ?_
  · exact fun _ _ h => ⟨waited.threads.mp h.1,h.2⟩
  · exact fun _ _ h => ⟨waited.threads.mp h.1,waited.console.mp h.2⟩

theorem debug_passes (fmt : String) (off : 0 < s.curspl) :
    Passes (debug (kprintf depth) dbThreads fmt) s := by
  rw [Passes,debug,wp_bind,wp_read]
  by_cases threads : s.dbflags &&& dbThreads ≠ 0
  · rw [if_pos threads,wp_bind]
    refine wp_mono (kprintf_off depth _ _ (.inr off)) ?_ ?_ ?_
    · exact fun _ t h => ⟨h.1,fun quiet => absurd threads quiet⟩
    · exact fun _ _ h => ⟨threads,h.1⟩
    · exact fun _ _ h => ⟨threads,h.1⟩
  · rw [if_neg threads]
    exact Waited.refl s

theorem exorcise_passes (zombies : Nat) (off : 0 < s.curspl) :
    Passes (exorcise (kprintf depth) zombies) s := by
  rw [Passes,exorcise,wp_bind,wp_read,wp_bind,wp_assert,
    if_pos (decide_eq_true off)]
  have destroyed : Passes (loop (fun _ _ => threadDestroy (kprintf depth)) zombies 0 ()) s := by
    refine wp_loop_zero (fun _ _ t => Waited s t) zombies () (Waited.refl s) ?_
    intro i _ t _ waited
    refine wp_mono (debug_passes depth _ (by rwa [waited.curspl])) ?_ ?_ ?_
    · exact fun _ _ next => waited.trans next
    · exact fun _ _ h => ⟨waited.threads.mp h.1,h.2⟩
    · exact fun _ _ h => ⟨waited.threads.mp h.1,waited.console.mp h.2⟩
  exact destroyed.bind fun t waited => debug_passes depth _ (by rwa [waited.curspl])

theorem miSwitch_passes (zombies : Nat) (off : 0 < s.curspl) :
    Passes (miSwitch (kprintf depth) zombies) s := by
  rw [Passes,miSwitch,wp_bind,wp_read,wp_bind,wp_assert,
    if_pos (decide_eq_true off)]
  exact (debug_passes depth _ off).bind fun t waited =>
    exorcise_passes depth zombies (by rwa [waited.curspl])

theorem sleeps_passes (wakes : List Nat) (off : 0 < s.curspl) (free : s.inInterrupt = false) :
    Passes (sleeps (kprintf depth) wakes) s := by
  induction wakes generalizing s with
  | nil => exact Waited.refl s
  | cons zombies rest ih =>
    have slept : Passes (threadSleep (kprintf depth) zombies) s := by
      rw [Passes,threadSleep,wp_bind,wp_read,wp_bind,wp_assert,free]
      exact miSwitch_passes depth zombies off
    exact slept.bind fun t waited =>
      ih (by rwa [waited.curspl]) (waited.inInterrupt.trans free)

theorem wait_passes (off : 0 < s.curspl) (free : s.inInterrupt = false) :
    Passes (wait (kprintf depth)) s := by
  rw [Passes,wait,wp_bind,wp_read,wp_bind,wp_put]
  refine wp_imp (sleeps_passes depth (s.waits 0) off free) ?_
  intro _ t waited
  exact ⟨⟨waited.dbflags,waited.curspl,waited.inInterrupt,waited.curthread,waited.kprintfLock,
    waited.console⟩,waited.silent⟩

theorem wait_splhigh (free : s.inInterrupt = false) {next : Nat → Kp Unit}
    {ok : Unit → Kern → Prop} {err : Endless → Kern → Prop} {halt : Halt → Kern → Prop}
    (rest : ∀ t, Waited { s with curspl := 15 } t → (next s.curspl).wp t ok err halt)
    (deep : ∀ t, s.Threads → err .depth t) (full : ∀ site t, s.Threads → s.console = none → halt site t) :
    (do let spl ← splhigh; wait (kprintf depth); next spl).wp s ok err halt := by
  simp only [splhigh,splx,wp_bind,wp_read,wp_put,wp_pure]
  refine wp_mono (wait_passes depth (Nat.succ_pos 14) free)
    (fun _ t => rest t) ?_ ?_
  · rintro _ t ⟨threads,rfl⟩
    exact deep t threads
  · rintro _ t ⟨threads,detached⟩
    exact full _ t threads detached

theorem proberen_passes (free : s.inInterrupt = false) :
    Passes (proberen (kprintf depth)) s := by
  rw [Passes,proberen,wp_bind,wp_read,wp_bind,wp_assert,free]
  refine wait_splhigh depth free ?_ (fun _ threads => ⟨threads,rfl⟩)
    fun _ _ threads detached => ⟨threads,detached⟩
  intro t waited
  exact ⟨⟨waited.dbflags,rfl,waited.inInterrupt,waited.curthread,waited.kprintfLock,
    waited.console⟩,waited.silent⟩

theorem consoleSend_intr (text : List UInt8) (attached : s.console ≠ none)
    (free : s.inInterrupt = false) (on : s.curspl = 0) :
    (consoleSend (kprintf depth) text).wp s (fun _ t => Setting s t)
      (fun e _ => s.Threads ∧ e = .depth) never := by
  induction text generalizing s with
  | nil => exact Setting.refl s
  | cons ch rest ih =>
    rw [consoleSend,wp_bind,putch,wp_bind,wp_read,if_neg attached,
      if_neg (by simp [free,on]),putchIntr,wp_bind]
    refine wp_mono (proberen_passes depth free) ?_ (fun _ _ h => h) fun _ _ h => attached h.2
    intro _ t waited
    refine wp_total (send_wp ch) ?_
    intro _ u sent
    have same := waited.toSetting.trans sent
    refine wp_ends (ih ?_ ?_ ?_) (fun _ _ next => same.trans next) ?_
    · exact mt same.console.mp attached
    · rw [same.inInterrupt,free]
    · rw [same.curspl,on]
    · exact fun _ _ h => ⟨same.threads.mp h.1,h.2⟩

end

/-- Interrupts are on and the lock is there and free, so `kprintf` takes it. -/
structure Kern.Ready (s : Kern) : Prop where
  curspl : s.curspl = 0
  inInterrupt : s.inInterrupt = false
  kprintfLock : s.kprintfLock = some Lock.create

/-- The text has room, in the console or in the buffer. -/
def Fits (s : Kern) (fmt : CString) (ap : VaList) : Prop :=
  s.console ≠ none ∨ s.delayed.val.length + (vprintf fmt ap).1.length ≤ 1024

section
variable {s : Kern} {depth : Nat} {fmt : CString} {ap : VaList}

theorem Kern.Ready.locks (ready : s.Ready) : s.locks = true := by
  simp [Kern.locks,ready.curspl,ready.inInterrupt,ready.kprintfLock]

theorem lockAcquire_ready (ready : s.Ready) :
    (lockAcquire (kprintf depth)).wp s
      (fun _ t => Waited { s with kprintfLock := some ⟨0,some s.curthread⟩ } t)
      (fun e _ => s.Threads ∧ e = .depth) fun _ _ => s.Threads ∧ s.console = none := by
  rw [lockAcquire]
  refine wait_splhigh depth ready.inInterrupt ?_ (fun _ threads => ⟨threads,rfl⟩)
    fun _ _ threads detached => ⟨threads,detached⟩
  intro t waited
  have free : t.kprintfLock = some ⟨1,none⟩ := waited.kprintfLock.trans ready.kprintfLock
  simp only [lockTake,splx,wp_bind,wp_read,wp_put,wp_pure,free,
    one_ne_zero,if_false]
  exact ⟨⟨waited.dbflags,rfl,waited.inInterrupt,waited.curthread,
    congrArg (fun i => some (Lock.mk 0 (some i))) waited.curthread,waited.console⟩,waited.silent⟩

theorem consoleSend_held (text : List UInt8) (free : s.inInterrupt = false) (on : s.curspl = 0) :
    (consoleSend (kprintf depth) text).wp s
      (fun _ t => Setting s t ∧ (s.console ≠ none ∨ s.delayed.val.length + text.length ≤ 1024))
      (fun e _ => s.Threads ∧ e = .depth)
      fun _ _ => s.console = none ∧ 1024 < s.delayed.val.length + text.length := by
  by_cases detached : s.console = none
  · refine wp_mono (consoleSend_delayed _ text detached) ?_ (fun _ _ h => h.elim)
      fun _ _ full => ⟨detached,full⟩
    rintro _ t ⟨same,length⟩
    have fits := t.delayed.property
    exact ⟨same,.inr (by omega)⟩
  · exact wp_safe (consoleSend_intr depth text detached free on)
      (fun _ _ same => ⟨same,.inl detached⟩) (fun _ _ h => h)

theorem kprintf_ready (ready : s.Ready) {ok : Int → Kern → Prop} {err : Endless → Kern → Prop}
    {halt : Halt → Kern → Prop}
    (released : ∀ t : Kern, t.Ready → t.dbflags = s.dbflags → (t.console = none ↔ s.console = none) →
      (¬ s.Threads → Fits s fmt ap) →
      (debug (kprintf depth) dbThreads "Lock Released\n").wp t
        (fun _ u => ok (vprintf fmt ap).2 u) err halt)
    (deep : ∀ t, s.Threads → err .depth t)
    (full : ∀ site t, s.console = none → (¬ s.Threads → ¬ Fits s fmt ap) → halt site t) :
    (kprintf (depth + 1) fmt ap).wp s ok err halt := by
  rw [kprintf,wp_bind,locked,wp_bind,wp_read,ready.locks,if_pos rfl]
  refine wp_mono (lockAcquire_ready ready) ?_ ?_ ?_
  · intro _ t waited
    have on : t.curspl = 0 := waited.curspl.trans ready.curspl
    have free : t.inInterrupt = false := waited.inInterrupt.trans ready.inInterrupt
    have silent : ¬ s.Threads → t.delayed = s.delayed := waited.silent
    rw [wp_bind]
    refine wp_mono (consoleSend_held _ free on) ?_ ?_ ?_
    · rintro _ u ⟨same,fits⟩
      have lock : u.kprintfLock = some ⟨0,some s.curthread⟩ :=
        same.kprintfLock.trans waited.kprintfLock
      have mine : u.curthread = s.curthread := same.curthread.trans waited.curthread
      have locks : u.locks = true := by
        simp [Kern.locks,lock,same.inInterrupt,free,same.curspl,on]
      simp only [locked,wp_bind,wp_read,locks,if_true,lockRelease,splhigh,splx,
        lockGive,wp_put,wp_pure,lock,mine]
      refine released _ ⟨same.curspl.trans on,same.inInterrupt.trans free,rfl⟩
        (same.dbflags.trans waited.dbflags) (same.console.trans waited.console) ?_
      intro off
      rw [silent off] at fits
      exact fits.imp_left (mt waited.console.mpr)
    · rintro _ u ⟨threads,rfl⟩
      exact deep u (waited.threads.mp threads)
    · rintro _ u ⟨detached,full'⟩
      refine full _ u (waited.console.mp detached) fun off fits => ?_
      rw [silent off] at full'
      cases fits with
      | inl attached => exact attached (waited.console.mp detached)
      | inr room => omega
  · rintro _ t ⟨threads,rfl⟩
    exact deep t threads
  · rintro _ t ⟨threads,detached⟩
    exact full _ t detached fun off => absurd threads off

/-- With `DB_THREADS` on, `lock_release` prints at `curspl = 0` with the lock free, which is the
call it is part of once more: there is no depth at which it ends. -/
theorem kprintf_deep (ready : s.Ready) (threads : s.Threads) :
    (kprintf depth fmt ap).wp s never (fun e _ => e = .depth)
      fun _ _ => s.console = none := by
  induction depth generalizing s fmt ap with
  | zero => exact rfl
  | succ depth ih =>
    refine kprintf_ready ready ?_ (fun _ _ => rfl) fun _ _ detached _ => detached
    intro t again flags console _
    have still : t.dbflags &&& dbThreads ≠ 0 := by rwa [flags]
    rw [debug,wp_bind,wp_read,if_pos still,wp_bind]
    exact wp_mono (ih again still) (fun _ _ h => h.elim) (fun _ _ h => h)
      fun _ _ detached => console.mp detached

theorem kprintf_shallow (ready : s.Ready) (off : ¬ s.Threads) :
    (kprintf (depth + 1) fmt ap).wp s (fun _ _ => Fits s fmt ap) never
      fun _ _ => ¬ Fits s fmt ap := by
  refine kprintf_ready ready ?_ (fun _ threads => off threads) fun _ _ _ full => full off
  intro t again flags console fits
  have still : ¬ t.dbflags &&& dbThreads ≠ 0 := by rwa [flags]
  rw [debug,wp_bind,wp_read,if_neg still]
  exact fits off

theorem finishes_of_wp (spec : (kprintf depth fmt ap).wp s (fun _ _ => True) never
    never) : Finishes s fmt ap := by
  obtain ⟨chars,t,ran,_⟩ := wp_returns spec
  exact ⟨depth,chars,t,ran⟩

/-- `kprintf` returns, with interrupts on and its lock free, exactly if `DB_THREADS` is off (or the
call comes from an interrupt handler, which does not lock) and the text has room. -/
theorem kprintf_finishes_iff (on : s.curspl = 0) (free : s.kprintfLock = some Lock.create) :
    Finishes s fmt ap ↔
      (s.dbflags &&& dbThreads = 0 ∨ s.inInterrupt = true) ∧
      (s.console ≠ none ∨ s.delayed.val.length + (vprintf fmt ap).1.length ≤ 1024) := by
  cases handler : s.inInterrupt with
  | true =>
    have spec := fun depth => kprintf_off depth fmt ap (s := s) (.inl handler)
    constructor
    · rintro ⟨depth,chars,t,ran⟩
      exact ⟨.inr rfl,(wp_ok (spec depth) ran).2⟩
    · rintro ⟨_,fits⟩
      refine finishes_of_wp (wp_mono (spec 1) (fun _ _ _ => trivial) ?_ ?_)
      · exact fun _ _ h => absurd h.2 one_ne_zero
      · exact fun _ _ h => fits.elim (fun attached => attached h.1) fun room => by omega
  | false =>
    have ready : s.Ready := ⟨on,handler,free⟩
    constructor
    · rintro ⟨depth,chars,t,ran⟩
      by_cases threads : s.Threads
      · exact (wp_ok (kprintf_deep ready threads) ran).elim
      · refine ⟨.inl (not_not.mp threads),?_⟩
        cases depth with
        | zero => cases ran
        | succ depth => exact wp_ok (kprintf_shallow ready threads) ran
    · rintro ⟨quiet,fits⟩
      have off : ¬ s.Threads := not_not.mpr (quiet.resolve_right (by decide))
      have spec : (kprintf 1 fmt ap).wp s _ _ _ := kprintf_shallow ready off
      exact finishes_of_wp
        (wp_mono spec (fun _ _ _ => trivial) (fun _ _ h => h) fun _ _ full => full fits)

end

def booted (dbflags : UInt32) : Kern where
  dbflags := dbflags
  curspl := 0
  inInterrupt := false
  curthread := 0
  kprintfLock := some Lock.create
  console := some []
  delayed := ⟨[],by decide⟩
  waits := fun _ => []

theorem kprintf_finishes_booted : (booted 0).curspl = 0 ∧
    (booted 0).kprintfLock = some Lock.create ∧ Finishes (booted 0) (literal "%d cpus\n") noArgs :=
  ⟨rfl,rfl,(kprintf_finishes_iff rfl rfl).mpr ⟨.inl (by decide),.inl (by decide)⟩⟩

/-- With `DB_THREADS` set the same call is still running at every depth. -/
theorem kprintf_endless_booted : (booted dbThreads).curspl = 0 ∧
    (booted dbThreads).kprintfLock = some Lock.create ∧
    (∀ depth, (kprintf depth (literal "%d cpus\n") noArgs (booted dbThreads)).1 = .err .depth) ∧
    ¬ Finishes (booted dbThreads) (literal "%d cpus\n") noArgs := by
  have deep : ∀ depth, (kprintf depth (literal "%d cpus\n") noArgs).wp (booted dbThreads)
      (fun _ _ => False) (fun e _ => e = .depth) fun _ _ => (booted dbThreads).console = none :=
    fun depth => kprintf_deep ⟨rfl,rfl,rfl⟩ (show dbThreads &&& dbThreads ≠ 0 by decide)
  refine ⟨rfl,rfl,?_,?_⟩
  · intro depth
    have spec := deep depth
    unfold Exec.wp at spec
    rcases h : kprintf depth (literal "%d cpus\n") noArgs (booted dbThreads) with ⟨_ | e | _,t⟩ <;>
      simp only [h] at spec
    · exact congrArg Outcome.err spec
    · cases spec
  · rintro ⟨depth,chars,t,ran⟩
    exact wp_ok (deep depth) ran

end Kprintf
end Os161
