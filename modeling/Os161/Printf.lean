import Mathlib.Data.Nat.Digits.Defs
import Os161.Kprintf

/-! `lib/libc/__printf.c` with the callback that its output goes to, piece by piece, and with the
buffer in which numbers are built from the right. The state of the formatter is that of `Kprintf`,
and so is the text that the pieces make up. -/
namespace Os161
namespace Printf
open Kprintf

/-- The assertions, and a digit that would be stored in front of the buffer. -/
inductive Halt where
  | sendNul | modifierDigit | numberBuf
  deriving DecidableEq, Repr

/-- `PF` with its client. `pf.sent` is not part of the C structure: it is what has been sent. -/
structure Session (σ : Type) where
  pf : Pf
  clientdata : σ

abbrev Run (σ α : Type) := Exec (Session σ) Empty Halt α

def onPf (f : Pf → Pf) : Run σ Unit := modify fun s => { s with pf := f s.pf }

section Code
variable (func : σ → List UInt8 → σ)

def print (txt : List UInt8) : Run σ Unit :=
  modify fun s => ⟨s.pf.print txt,func s.clientdata txt⟩

/-- `__pf_modifier`. What is neither a flag nor `0` has to be another digit. -/
def modifier (ch : UInt8) : Run σ Unit := do
  assert (ch ∈ bytes "#-lq0" ∨ 48 < ch ∧ ch ≤ 57) .modifierDigit
  onPf (Pf.modifier ch)

def fill (spc : Nat) : Run σ Unit := do
  let f := (← read).pf.fillchar
  loop (fun _ _ => print func [f]) spc 0 ()

def fillIf (c : Prop) [Decidable c] (spc : Nat) : Run σ Unit := if c then fill func spc else pure ()

def printstuff (sign base stuff : List UInt8) : Run σ Unit := do
  let pf := (← read).pf
  let len := sign.length + base.length + stuff.length
  -- the difference, or 0 where the text is longer than the field
  let spc := (pf.spacing - len).toNat
  fillIf func (spc > 0 ∧ pf.rightspc = false ∧ pf.fillchar ≠ 48) spc
  print func sign
  print func base
  fillIf func (spc > 0 ∧ pf.rightspc = false ∧ pf.fillchar = 48) spc
  print func stuff
  fillIf func (spc > 0 ∧ pf.rightspc = true) spc

/-- `(sizeof(INTTYPE) * CHAR_BIT) / 3 + 2` -/
def numberBufSize : Nat := 4 * 8 / 3 + 2

def digits : List UInt8 := bytes "0123456789abcdef"

/-- The `do` loop of `__pf_printnum`, with `x` bytes in front of what has been stored. It returns
the position of the first digit. -/
def digitLoop (base : Nat) : Nat → Nat → (Nat → UInt8) → Run σ (Nat × (Nat → UInt8))
  | 0, _, _ => panic .numberBuf
  | x + 1, xnum, buf =>
    let stored := fun i => if i = x then digits.getD (xnum % base) 0 else buf i
    if xnum / base > 0 then digitLoop base x (xnum / base) stored else pure (x,stored)

def bufText (x : Nat) (buf : Nat → UInt8) : List UInt8 :=
  (List.range (numberBufSize - 1 - x)).map fun i => buf (x + i)

def printnum : Run σ Unit := do
  let pf := (← read).pf
  let (x,buf) ← digitLoop pf.base (numberBufSize - 1) pf.num.toNat fun _ => 0
  let bprefix :=
    if pf.baseprefix ∧ pf.base = 16 then bytes "0x"
    else if pf.baseprefix ∧ pf.base = 8 then bytes "0" else []
  printstuff func (if pf.sign then bytes "-" else []) bprefix (bufText x buf)

def vaArg : Run σ UInt32 := do
  let pf := (← read).pf
  onPf fun pf => { pf with ap := pf.ap.arg.2 }
  return pf.ap.arg.1

def send (ch : UInt8) : Run σ Unit := do
  assert (ch ≠ 0) .sendNul
  let pf := (← read).pf
  if pf.inPct = false ∧ ch ≠ 37 then print func [ch]
  else if pf.inPct = false then onPf fun pf => { pf with inPct := true }
  else if ch ∈ bytes "#-ql0123456789" then modifier ch
  else if ch ∈ bytes "doupx" then do
    onPf (Pf.getnum ch)
    onPf (Pf.setbase ch)
    printnum func
    onPf Pf.endfield
  else if ch ∈ bytes "s" then do
    let str ← vaArg
    printstuff func [] [] (if str = 0 then bytes "(null)" else (pf.ap.string str).chars)
    onPf Pf.endfield
  else do
    if ch ∈ bytes "c" then do
      let x := (← vaArg).toUInt8
      printstuff func [] [] (if x = 0 then [] else [x])
    else printstuff func [] [] [ch]
    onPf Pf.endfield

def sendAll : List UInt8 → Run σ Unit
  | [] => pure ()
  | ch :: rest => do
    send func ch
    sendAll rest

def start (ap : VaList) : Pf := Pf.endfield
  { sent := [], ap := ap, charcount := 0, inPct := false, size := .intsz, num := 0, sign := false
    spacing := 0, rightspc := false, fillchar := 32, base := 0, baseprefix := false, altformat := false }

/-- `__vprintf(func, clientdata, format, ap)` with the client's data afterwards. -/
def vprintf (clientdata : σ) (format : CString) (ap : VaList) : Outcome Empty Halt (σ × Int) :=
  let ended := (do
    sendAll func format.chars
    let s ← read
    return (s.clientdata,s.pf.charcount) : Run σ (σ × Int)) ⟨start ap,clientdata⟩
  ended.1

end Code

/-! The pieces make up the text -/

/-- From `s` to `t` the formatter does `f`, and what it sends goes to the client in pieces. -/
structure Sends (func : σ → List UInt8 → σ) (f : Pf → Pf) (s t : Session σ) : Prop where
  pf : t.pf = f s.pf
  pieces : ∃ pieces : List (List UInt8), t.clientdata = pieces.foldl func s.clientdata ∧
    t.pf.sent = s.pf.sent ++ pieces.flatten

section Fields
variable (pf : Pf) (txt : List UInt8) (spc : Nat)

@[simp] theorem print_rightspc : (pf.print txt).rightspc = pf.rightspc := rfl
@[simp] theorem print_fillchar : (pf.print txt).fillchar = pf.fillchar := rfl

theorem fill_last : (pf.fill spc).print [pf.fillchar] = pf.fill (spc + 1) := by
  induction spc generalizing pf with
  | zero => rfl
  | succ spc ih => exact ih (pf.print [pf.fillchar])

theorem fill_keeps {f : Pf → α} (keeps : ∀ pf txt, f (Pf.print txt pf) = f pf) :
    f (pf.fill spc) = f pf := by
  induction spc generalizing pf with
  | zero => rfl
  | succ spc ih => exact (ih _).trans (keeps _ _)

@[simp] theorem fill_rightspc : (pf.fill spc).rightspc = pf.rightspc := fill_keeps pf spc fun _ _ => rfl
@[simp] theorem fill_fillchar : (pf.fill spc).fillchar = pf.fillchar := fill_keeps pf spc fun _ _ => rfl

end Fields

section Sends
variable {func : σ → List UInt8 → σ} {f g : Pf → Pf} {s t u : Session σ}

theorem Sends.refl (s : Session σ) : Sends func id s s := ⟨rfl,[],rfl,(List.append_nil _).symm⟩

theorem Sends.trans (first : Sends func f s t) (second : Sends func g t u) : Sends func (g ∘ f) s u := by
  obtain ⟨pf,front,client,sent⟩ := first
  obtain ⟨pf',back,client',sent'⟩ := second
  refine ⟨by rw [pf',pf]; rfl,front ++ back,?_,?_⟩
  · rw [client',client,List.foldl_append]
  · rw [sent',sent,List.flatten_append,List.append_assoc]

def Does (func : σ → List UInt8 → σ) (call : Run σ Unit) (f : Pf → Pf) (s : Session σ) : Prop :=
  call.wp s (fun _ t => Sends func f s t) never never

theorem Does.bind {call next : Run σ Unit} (first : Does func call f s)
    (second : ∀ t, t.pf = f s.pf → Does func next g t) : Does func (call >>= fun _ => next) (g ∘ f) s := by
  rw [Does,wp_bind]
  apply wp_imp first
  intro _ t sends
  apply wp_imp (second t sends.pf)
  exact fun _ _ later => sends.trans later

theorem onPf_does (silent : (f s.pf).sent = s.pf.sent) : Does func (onPf f) f s :=
  ⟨rfl,[],rfl,silent.trans (List.append_nil _).symm⟩

theorem print_does (txt : List UInt8) : Does func (print func txt) (Pf.print txt) s :=
  ⟨rfl,[txt],rfl,by simp [Pf.print]⟩

theorem fill_does (spc : Nat) : Does func (fill func spc) (Pf.fill spc) s := by
  rw [Does,fill,wp_bind,wp_read]
  apply wp_loop_zero (fun i _ t => Sends func (Pf.fill i) s t) spc () (.refl s)
  intro i _ t _ sends
  apply wp_imp (print_does [s.pf.fillchar])
  intro _ u last
  obtain ⟨pf,pieces⟩ := sends.trans last
  exact ⟨pf.trans (fill_last s.pf i),pieces⟩

theorem Does.ite {c : Prop} [Decidable c] {yes no : Run σ Unit} (first : c → Does func yes f s)
    (second : ¬c → Does func no g s) :
    Does func (if c then yes else no) (fun pf => if c then f pf else g pf) s := by
  split
  · exact first ‹_›
  · exact second ‹_›

theorem fillIf_does (c : Prop) [Decidable c] (spc : Nat) :
    Does func (fillIf func c spc) (fun pf => if c then pf.fill spc else pf) s :=
  .ite (fun _ => fill_does spc) fun _ => .refl s

theorem Does.congr {call : Run σ Unit} (does : Does func call f s) (same : f s.pf = g s.pf) :
    Does func call g s := by
  apply wp_imp does
  exact fun _ _ sends => ⟨sends.pf.trans same,sends.pieces⟩

theorem fill_positive (c : Prop) [Decidable c] (spc : Nat) (pf : Pf) :
    (if spc > 0 ∧ c then pf.fill spc else pf) = if c then pf.fill spc else pf := by
  rcases Nat.eq_zero_or_pos spc with rfl | positive
  · simp [Pf.fill]
  · simp [positive]

theorem printstuff_does (sign base stuff : List UInt8) :
    Does func (printstuff func sign base stuff) (Pf.printstuff sign base stuff) s := by
  rw [printstuff,Does,wp_bind,wp_read]
  apply Does.congr
  · exact (fillIf_does _ _).bind fun _ _ => (print_does sign).bind fun _ _ =>
      (print_does base).bind fun _ _ => (fillIf_does _ _).bind fun _ _ =>
      (print_does stuff).bind fun _ _ => fillIf_does _ _
  · simp only [Function.comp,fill_positive,Pf.printstuff]
    cases right : s.pf.rightspc with
    | true => simp [right]
    | false =>
      by_cases zero : s.pf.fillchar = 48
      · simp [right,zero]
      · simp [right,zero]

def digitText (base n : Nat) : List UInt8 := (Nat.toDigits base n).map Char.toUInt8

theorem digits_getD {d : Nat} (small : d < 16) : digits.getD d 0 = (Nat.digitChar d).toUInt8 := by
  revert d
  decide

theorem digitText_last {base n : Nat} (low : 1 < base) (more : base ≤ n) :
    digitText base n = digitText base (n / base) ++ [(Nat.digitChar (n % base)).toUInt8] := by
  rw [digitText,Nat.toDigits_of_base_le low more,List.map_append]
  rfl

theorem digitLoop_spec {base n x : Nat} {buf : Nat → UInt8} (low : 1 < base) (high : base ≤ 16)
    (fits : (digitText base n).length ≤ x) :
    (digitLoop base x n buf : Run σ _).wp s
      (fun r t => t = s ∧ r.1 ≤ x ∧ (List.range (x - r.1)).map (fun i => r.2 (r.1 + i)) = digitText base n ∧
        ∀ i, x ≤ i → r.2 i = buf i) never never := by
  induction x generalizing n buf with
  | zero =>
    have := List.length_pos_of_ne_nil (Nat.toDigits_ne_nil (b := base) (n := n))
    rw [digitText,List.length_map] at fits
    omega
  | succ x ih =>
    have digit : digits.getD (n % base) 0 = (Nat.digitChar (n % base)).toUInt8 :=
      digits_getD (Nat.lt_of_lt_of_le (Nat.mod_lt n (by omega)) high)
    rw [digitLoop,wp_ite]
    refine ⟨fun more => ?_,fun last => ?_⟩
    · have least : base ≤ n := (Nat.div_pos_iff.mp more).2
      rw [digitText_last low least,List.length_append,List.length_singleton] at fits
      apply wp_imp (ih (by omega))
      rintro ⟨first,stored⟩ t ⟨rfl,bound,text,above⟩
      refine ⟨rfl,Nat.le_succ_of_le bound,?_,fun i ge => ?_⟩
      · simp only at bound text above ⊢
        rw [Nat.succ_sub bound,List.range_succ,List.map_append,text,digitText_last low least,
          List.map_singleton,Nat.add_sub_cancel' bound,above x (Nat.le_refl x),if_pos rfl,digit]
      · rw [above i (by omega),if_neg (by omega)]
    · have small : n < base := by
        by_contra large
        exact last (Nat.div_pos (by omega) (by omega))
      refine ⟨rfl,Nat.le_succ x,?_,fun i ge => if_neg (by omega)⟩
      rw [digitText,Nat.toDigits_of_lt_base small]
      simp only [Nat.add_sub_cancel_left,List.range_one,List.map_singleton,Nat.add_zero,if_true]
      rw [digit,Nat.mod_eq_of_lt small]

theorem digitText_fits {base : Nat} (low : 8 ≤ base) (n : UInt32) :
    (digitText base n.toNat).length ≤ numberBufSize - 1 := by
  have bound : n.toNat < base ^ 11 :=
    calc n.toNat < 2^32 := n.toNat_lt
      _ ≤ 8 ^ 11 := by decide
      _ ≤ base ^ 11 := Nat.pow_le_pow_left low 11
  rw [digitText,List.length_map]
  exact (Nat.length_toDigits_le_iff (by omega) (by decide)).mpr bound

theorem printnum_does (low : 8 ≤ s.pf.base) (high : s.pf.base ≤ 16) :
    Does func (printnum func) Pf.printnum s := by
  rw [printnum,Does,wp_bind,wp_read,wp_bind]
  apply wp_imp (digitLoop_spec (by omega) high (digitText_fits low s.pf.num))
  rintro ⟨x,buf⟩ t ⟨rfl,_,text,_⟩
  have stuff : bufText x buf = digitText t.pf.base t.pf.num.toNat := text
  simp only [stuff]
  exact (printstuff_does _ _ _).congr rfl

theorem vaArg_does {next : UInt32 → Run σ Unit}
    (later : Does func (next s.pf.ap.arg.1) g ⟨{ s.pf with ap := s.pf.ap.arg.2 },s.clientdata⟩) :
    Does func (vaArg >>= next) (fun pf => g { pf with ap := pf.ap.arg.2 }) s := by
  rw [Does,wp_bind,vaArg,wp_bind,wp_read,wp_bind,onPf,wp_modify,wp_pure]
  apply wp_imp later
  exact fun _ _ sends => ⟨sends.pf,sends.pieces⟩

theorem modifier_does {ch : UInt8} (known : ch ∈ bytes "#-ql0123456789") :
    Does func (modifier ch) (Pf.modifier ch) s := by
  have digit : ∀ c ∈ bytes "#-ql0123456789", c ∈ bytes "#-lq0" ∨ 48 < c ∧ c ≤ 57 := by decide +kernel
  rw [modifier,Does,wp_bind,wp_assert,if_pos (decide_eq_true (digit ch known))]
  apply onPf_does
  rw [Pf.modifier]
  split_ifs <;> rfl

theorem setbase_base (ch : UInt8) (pf : Pf) : 8 ≤ (pf.setbase ch).base ∧ (pf.setbase ch).base ≤ 16 := by
  simp only [Pf.setbase]
  split_ifs <;> omega

theorem number_does (ch : UInt8) :
    Does func (do onPf (Pf.getnum ch); onPf (Pf.setbase ch); printnum func; onPf Pf.endfield)
      (fun pf => ((pf.getnum ch).setbase ch).printnum.endfield) s := by
  refine (onPf_does (f := Pf.getnum ch) ?_).bind fun t _ => (onPf_does (f := Pf.setbase ch) rfl).bind
    fun u based => Does.bind (f := Pf.printnum) (printnum_does ?_ ?_) fun v _ => onPf_does rfl
  · simp only [Pf.getnum]
    split <;> rfl
  · exact based ▸ (setbase_base ch t.pf).1
  · exact based ▸ (setbase_base ch t.pf).2

theorem string_does :
    Does func (do
      let str ← vaArg
      printstuff func [] [] (if str = 0 then bytes "(null)" else (s.pf.ap.string str).chars)
      onPf Pf.endfield) (fun pf => pf.string.endfield) s :=
  (vaArg_does ((printstuff_does [] [] _).bind fun _ _ => onPf_does rfl)).congr rfl

theorem single_does {ch : UInt8} :
    Does func (do
      if ch ∈ bytes "c" then do
        let x := (← vaArg).toUInt8
        printstuff func [] [] (if x = 0 then [] else [x])
      else printstuff func [] [] [ch]
      onPf Pf.endfield) (fun pf => (pf.single ch).endfield) s := by
  refine Does.congr (.ite (fun _ => vaArg_does ((printstuff_does [] [] _).bind fun _ _ => onPf_does rfl))
    fun _ => (printstuff_does [] [] [ch]).bind fun _ _ => onPf_does rfl) ?_
  simp only [Pf.single]
  split <;> rfl

theorem send_does {ch : UInt8} (nonzero : ch ≠ 0) : Does func (send func ch) (Pf.send ch) s := by
  rw [send,Does,wp_bind,wp_assert,if_pos (decide_eq_true nonzero),wp_bind,wp_read]
  refine Does.congr (.ite (fun _ => print_does [ch]) fun _ => .ite (fun _ => onPf_does ?_) fun _ =>
    .ite modifier_does fun _ => .ite (fun _ => number_does ch) fun _ => .ite (fun _ => string_does)
      fun _ => single_does) ?_
  · rfl
  · rfl

theorem sendAll_does {chars : List UInt8} (nonzero : ∀ ch ∈ chars, ch ≠ 0) :
    Does func (sendAll func chars) (fun pf => chars.foldl (fun pf ch => pf.send ch) pf) s := by
  induction chars generalizing s with
  | nil => exact .refl s
  | cons ch rest ih =>
    exact (send_does (nonzero ch List.mem_cons_self)).bind fun t _ =>
      ih fun c member => nonzero c (List.mem_cons_of_mem ch member)

theorem vprintf_spec (func : σ → List UInt8 → σ) (clientdata : σ) (format : CString) (ap : VaList) :
    ∃ pieces : List (List UInt8), pieces.flatten = (Kprintf.vprintf format ap).1 ∧
      vprintf func clientdata format ap =
        .ok (pieces.foldl func clientdata,(Kprintf.vprintf format ap).2) := by
  have all : Does func (sendAll func format.chars) _ ⟨start ap,clientdata⟩ :=
    sendAll_does fun ch member nul => format.noNul (nul ▸ member)
  obtain ⟨_,t,ran,pf,pieces,client,sent⟩ := wp_returns all
  refine ⟨pieces,?_,?_⟩
  · rw [← List.nil_append pieces.flatten]
    exact sent.symm.trans (by rw [pf]; rfl)
  · rw [vprintf,bind_ok ran]
    show Outcome.ok (t.clientdata,t.pf.charcount) = _
    rw [client,pf]
    rfl

end Sends

def text (format : CString) (ap : VaList) : List UInt8 :=
  match vprintf (· ++ ·) [] format ap with
  | .ok sent => sent.1
  | _ => []

theorem text_eq (format : CString) (ap : VaList) : text format ap = (Kprintf.vprintf format ap).1 := by
  have joined (pieces : List (List UInt8)) (front : List UInt8) :
      pieces.foldl (· ++ ·) front = front ++ pieces.flatten := by
    induction pieces generalizing front with
    | nil => exact (List.append_nil front).symm
    | cons piece rest ih => rw [List.foldl_cons,ih,List.flatten_cons,List.append_assoc]
  obtain ⟨pieces,flat,ran⟩ := vprintf_spec (· ++ ·) [] format ap
  rw [text,ran]
  exact (joined pieces []).trans flat

end Printf
end Os161
