import Mathlib.Logic.Basic
import Mathlib.Order.Defs.Unbundled

/-! Kernel code as a function on an explicit state. A call returns, fails with an
error code, or halts the machine at a named panic site; the state reached is kept
in all three cases, since C code that returns an error keeps what it already did.
Nothing here mentions a particular kernel. -/
namespace Os161

inductive Outcome (ε π α : Type) where
  | ok (value : α)
  | err (code : ε)
  | panic (site : π)
  deriving DecidableEq, Repr

/-- A call over states `σ`, with error codes `ε` and panic sites `π`. -/
def Exec (σ ε π α : Type) := σ → Outcome ε π α × σ

/-- For an ending that does not occur. -/
abbrev never (_ : α) (_ : σ) : Prop := False

namespace Exec

instance : Monad (Exec σ ε π) where
  pure value := fun s => (.ok value, s)
  bind call next := fun s =>
    match call s with
    | (.ok value, t) => next value t
    | (.err code, t) => (.err code, t)
    | (.panic site, t) => (.panic site, t)

def read : Exec σ ε π σ := fun s => (.ok s, s)
def put (t : σ) : Exec σ ε π Unit := fun _ => (.ok (), t)
def modify (f : σ → σ) : Exec σ ε π Unit := fun s => (.ok (), f s)
def fail (code : ε) : Exec σ ε π α := fun s => (.err code, s)
def panic (site : π) : Exec σ ε π α := fun s => (.panic site, s)

/-- `assert(condition)`, named by the site it halts at. -/
def assert (condition : Bool) (site : π) : Exec σ ε π Unit :=
  if condition then pure () else panic site

/-- `result = call(...)`, for callers that look at the code before returning it.
A panic is not a result. -/
def attempt (call : Exec σ ε π α) : Exec σ ε π (Except ε α) := fun s =>
  match call s with
  | (.ok value, t) => (.ok (.ok value), t)
  | (.err code, t) => (.ok (.error code), t)
  | (.panic site, t) => (.panic site, t)

/-- `return result`, for a result taken with `attempt`. -/
def give : Except ε α → Exec σ ε π α
  | .ok value => pure value
  | .error code => fail code

def zoom (get : σ → τ) (set : σ → τ → σ) (call : Exec τ ε π α) : Exec σ ε π α := fun s =>
  let result := call (get s)
  (result.1, set s result.2)

def mapPanic (rename : π → ρ) (call : Exec σ ε π α) : Exec σ ε ρ α := fun s =>
  match call s with
  | (.ok value, t) => (.ok value, t)
  | (.err code, t) => (.err code, t)
  | (.panic site, t) => (.panic (rename site), t)

/-- `for (i = start; i < start + count; i++)` with the loop's locals in `α`. -/
def loop (body : Nat → α → Exec σ ε π α) : Nat → Nat → α → Exec σ ε π α
  | 0, _, locals => pure locals
  | count + 1, i, locals => do loop body count (i + 1) (← body i locals)

/-- What a call establishes: one assertion for each way it can end. -/
def wp (call : Exec σ ε π α) (s : σ) (ok : α → σ → Prop) (err : ε → σ → Prop)
    (halt : π → σ → Prop) : Prop :=
  match call s with
  | (.ok value, t) => ok value t
  | (.err code, t) => err code t
  | (.panic site, t) => halt site t

variable {σ τ ε π α β : Type} {s : σ} {ok ok' : α → σ → Prop} {err err' : ε → σ → Prop}
  {halt halt' : π → σ → Prop}

@[simp] theorem wp_pure (value : α) : wp (pure value) s ok err halt ↔ ok value s := Iff.rfl

@[simp] theorem wp_fail (code : ε) :
    wp (fail code : Exec σ ε π α) s ok err halt ↔ err code s := Iff.rfl

@[simp] theorem wp_panic (site : π) :
    wp (panic site : Exec σ ε π α) s ok err halt ↔ halt site s := Iff.rfl

@[simp] theorem wp_read {ok : σ → σ → Prop} :
    wp (read : Exec σ ε π σ) s ok err halt ↔ ok s s := Iff.rfl

@[simp] theorem wp_put {ok : Unit → σ → Prop} (t : σ) :
    wp (put t : Exec σ ε π Unit) s ok err halt ↔ ok () t := Iff.rfl

@[simp] theorem wp_modify {ok : Unit → σ → Prop} (f : σ → σ) :
    wp (modify f : Exec σ ε π Unit) s ok err halt ↔ ok () (f s) := Iff.rfl

@[simp] theorem wp_bind {ok : β → σ → Prop} (call : Exec σ ε π α) (next : α → Exec σ ε π β) :
    wp (call >>= next) s ok err halt ↔
      wp call s (fun value t => wp (next value) t ok err halt) err halt := by
  simp only [wp,bind]
  rcases call s with ⟨_ | _ | _, t⟩ <;> rfl

@[simp] theorem wp_assert {ok : Unit → σ → Prop} (condition : Bool) (site : π) :
    wp (assert condition site : Exec σ ε π Unit) s ok err halt ↔
      if condition then ok () s else halt site s := by
  cases condition <;> rfl

@[simp] theorem wp_attempt {ok : Except ε α → σ → Prop} (call : Exec σ ε π α) :
    wp (attempt call) s ok err halt ↔
      wp call s (fun value t => ok (.ok value) t) (fun code t => ok (.error code) t) halt := by
  simp only [wp,attempt]
  rcases call s with ⟨_ | _ | _, t⟩ <;> rfl

@[simp] theorem wp_give_ok (value : α) :
    wp (give (.ok value) : Exec σ ε π α) s ok err halt ↔ ok value s := Iff.rfl

@[simp] theorem wp_give_error (code : ε) :
    wp (give (.error code) : Exec σ ε π α) s ok err halt ↔ err code s := Iff.rfl

@[simp] theorem wp_zoom (get : σ → τ) (set : σ → τ → σ) (call : Exec τ ε π α) :
    wp (zoom get set call) s ok err halt ↔
      wp call (get s) (fun value t => ok value (set s t)) (fun code t => err code (set s t))
        (fun site t => halt site (set s t)) := by
  simp only [wp,zoom]
  rcases call (get s) with ⟨_ | _ | _, t⟩ <;> rfl

@[simp] theorem wp_mapPanic {halt : ρ → σ → Prop} (rename : π → ρ) (call : Exec σ ε π α) :
    wp (mapPanic rename call) s ok err halt ↔
      wp call s ok err (fun site t => halt (rename site) t) := by
  simp only [wp,mapPanic]
  rcases call s with ⟨_ | _ | _, t⟩ <;> rfl

variable {call : Exec σ ε π α} {value : α} {t : σ}

theorem bind_ok {next : α → Exec σ ε π β}
    (ran : call s = (.ok value, t)) : (call >>= next) s = next value t := by
  simp only [bind,ran]

theorem bind_congr {call' : Exec σ ε π α} {next : α → Exec σ ε π β} (same : call s = call' s) :
    (call >>= next) s = (call' >>= next) s := by
  simp only [bind,same]

theorem wp_ite (c : Prop) [Decidable c] (yes no : Exec σ ε π α) :
    wp (if c then yes else no) s ok err halt ↔
      (c → wp yes s ok err halt) ∧ (¬c → wp no s ok err halt) := by
  by_cases h : c <;> simp [h]

theorem wp_mono (spec : wp call s ok err halt)
    (onOk : ∀ value t, ok value t → ok' value t) (onErr : ∀ code t, err code t → err' code t)
    (onHalt : ∀ site t, halt site t → halt' site t) : wp call s ok' err' halt' := by
  unfold wp at spec ⊢
  rcases h : call s with ⟨_ | _ | _, t⟩ <;> simp only [h] at spec ⊢
  · exact onOk _ _ spec
  · exact onErr _ _ spec
  · exact onHalt _ _ spec

theorem wp_imp (spec : wp call s ok err halt)
    (onOk : ∀ value t, ok value t → ok' value t) : wp call s ok' err halt :=
  wp_mono spec onOk (fun _ _ h => h) fun _ _ h => h

theorem wp_ends (spec : wp call s ok err halt)
    (onOk : ∀ value t, ok value t → ok' value t) (onErr : ∀ code t, err code t → err' code t) :
    wp call s ok' err' halt :=
  wp_mono spec onOk onErr fun _ _ h => h

theorem wp_safe (spec : wp call s ok err fun _ _ => False)
    (onOk : ∀ value t, ok value t → ok' value t) (onErr : ∀ code t, err code t → err' code t) :
    wp call s ok' err' halt' :=
  wp_mono spec onOk onErr fun _ _ => False.elim

theorem wp_total (spec : wp call s ok (fun _ _ => False) fun _ _ => False)
    (onOk : ∀ value t, ok value t → ok' value t) : wp call s ok' err' halt' :=
  wp_mono spec onOk (fun _ _ => False.elim) fun _ _ => False.elim

theorem wp_sure (spec : wp call s ok (fun _ _ => False) halt)
    (onOk : ∀ value t, ok value t → ok' value t) (onHalt : ∀ site t, halt site t → halt' site t) :
    wp call s ok' err' halt' :=
  wp_mono spec onOk (fun _ _ => False.elim) onHalt

theorem wp_errless (spec : wp call s ok (fun _ _ => False) halt) : wp call s ok err' halt :=
  wp_sure spec (fun _ _ h => h) fun _ _ h => h

/-- The rules for a caller to whom it does not matter where the call halts. -/
theorem wp_liberal (spec : wp call s ok err halt)
    (onOk : ∀ value t, ok value t → ok' value t) (onErr : ∀ code t, err code t → err' code t) :
    wp call s ok' err' fun _ _ => True :=
  wp_mono spec onOk onErr fun _ _ _ => trivial

theorem wp_through (spec : wp call s ok (fun _ _ => False) halt)
    (onOk : ∀ value t, ok value t → ok' value t) : wp call s ok' err' fun _ _ => True :=
  wp_sure spec onOk fun _ _ _ => trivial

theorem wp_and (first : wp call s ok err halt)
    (second : wp call s ok' err' halt') :
    wp call s (fun value t => ok value t ∧ ok' value t) (fun code t => err code t ∧ err' code t)
      (fun site t => halt site t ∧ halt' site t) := by
  unfold wp at first second ⊢
  rcases h : call s with ⟨_ | _ | _, t⟩ <;> simp only [h] at first second ⊢
  · exact ⟨first,second⟩
  · exact ⟨first,second⟩
  · exact ⟨first,second⟩

theorem wp_ok (spec : wp call s ok err halt) {value : α} {t : σ}
    (ran : call s = (.ok value, t)) : ok value t := by
  simpa only [wp,ran] using spec

theorem wp_err (spec : wp call s ok err halt) {code : ε} {t : σ}
    (ran : call s = (.err code, t)) : err code t := by
  simpa only [wp,ran] using spec

theorem wp_halt (spec : wp call s ok err halt) {site : π} {t : σ}
    (ran : call s = (.panic site, t)) : halt site t := by
  simpa only [wp,ran] using spec

theorem wp_of_ok (ran : call s = (.ok value, t))
    (spec : ok value t) : wp call s ok err halt := by
  simpa only [wp,ran] using spec

theorem wp_self (call : Exec σ ε π α) : wp call s (fun value t => call s = (.ok value, t))
    (fun code t => call s = (.err code, t)) fun site t => call s = (.panic site, t) := by
  unfold wp
  rcases call s with ⟨_ | _ | _, t⟩ <;> rfl

theorem wp_after {P : σ → Prop}
    (spec : wp call s (fun _ t => P t) (fun _ t => P t) fun _ t => P t) : P (call s).2 := by
  unfold wp at spec
  rcases h : call s with ⟨_ | _ | _, t⟩ <;> simpa only [h] using spec

theorem wp_returns (spec : wp call s ok (fun _ _ => False) fun _ _ => False) :
    ∃ value t, call s = (.ok value, t) ∧ ok value t := by
  unfold wp at spec
  rcases h : call s with ⟨_ | _ | _, t⟩ <;> simp only [h] at spec
  exact ⟨_,t,rfl,spec⟩

theorem wp_fails (spec : wp call s (fun _ _ => False) err fun _ _ => False) :
    ∃ code t, call s = (.err code, t) ∧ err code t := by
  unfold wp at spec
  rcases h : call s with ⟨_ | _ | _, t⟩ <;> simp only [h] at spec
  exact ⟨_,t,rfl,spec⟩

theorem wp_ran (spec : wp call s ok err fun _ _ => False) :
    wp call s (fun value t => call s = (.ok value, t)) (fun code t => call s = (.err code, t))
      fun _ _ => False := by
  unfold wp at spec ⊢
  rcases h : call s with ⟨_ | _ | _, t⟩ <;> simp only [h] at spec ⊢

theorem not_wp_of_wp (spec : wp call s ok err halt)
    (onOk : ∀ value t, ok value t → ¬ ok' value t) (onErr : ∀ code t, err code t → ¬ err' code t)
    (onHalt : ∀ site t, halt site t → ¬ halt' site t) : ¬ wp call s ok' err' halt' := by
  unfold wp at spec ⊢
  rcases h : call s with ⟨_ | _ | _, t⟩ <;> simp only [h] at spec ⊢
  · exact onOk _ _ spec
  · exact onErr _ _ spec
  · exact onHalt _ _ spec

theorem wp_iff {condition : Prop}
    (spec : wp call s (fun value t => ok value t ↔ condition) (fun code t => err code t ↔ condition)
      fun site t => halt site t ↔ condition) : wp call s ok err halt ↔ condition := by
  unfold wp at spec ⊢
  rcases h : call s with ⟨_ | _ | _, t⟩ <;> simpa only [h] using spec

/-- The invariant rule for loops: `inv i` holds each time the loop test is reached. -/
theorem wp_loop {body : Nat → α → Exec σ ε π α} (inv : Nat → α → σ → Prop)
    (count start : Nat) (locals : α) (initial : inv start locals s)
    (step : ∀ i locals t, start ≤ i → i < start + count → inv i locals t →
      wp (body i locals) t (inv (i + 1)) err halt) :
    wp (loop body count start locals) s (inv (start + count)) err halt := by
  induction count generalizing start locals s with
  | zero => exact initial
  | succ count ih =>
    rw [loop,wp_bind]
    apply wp_imp (step start locals s (Nat.le_refl _) (by omega) initial)
    intro next t reached
    have rest := ih (start + 1) next reached fun i l t low high h =>
      step i l t (by omega) (by omega) h
    rwa [show start + 1 + count = start + (count + 1) by omega] at rest

/-- The same rule for `for (i = 0; i < count; i++)`. -/
theorem wp_loop_zero {body : Nat → α → Exec σ ε π α} (inv : Nat → α → σ → Prop)
    (count : Nat) (locals : α) (initial : inv 0 locals s)
    (step : ∀ i locals t, i < count → inv i locals t →
      wp (body i locals) t (inv (i + 1)) err halt) :
    wp (loop body count 0 locals) s (inv count) err halt := by
  have run : wp (loop body count 0 locals) s (inv (0 + count)) err halt :=
    wp_loop inv count 0 locals initial fun i l t _ high h => step i l t (by omega) h
  rwa [Nat.zero_add] at run

/-- However the call ends, `R` relates the state before to the state after. -/
def Keeps (R : σ → σ → Prop) (call : Exec σ ε π α) : Prop := ∀ s, R s (call s).2

section Keeps
variable {R : σ → σ → Prop}
variable {call : Exec σ ε π α}

theorem Keeps.wp (keeps : Keeps R call) (s : σ) :
    call.wp s (fun _ t => R s t) (fun _ t => R s t) (fun _ t => R s t) := by
  have := keeps s
  unfold Exec.wp
  rcases h : call s with ⟨_ | _ | _, t⟩ <;> simpa only [h] using this

theorem keeps_modify {f : σ → σ} (kept : ∀ s, R s (f s)) :
    Keeps R (modify f : Exec σ ε π Unit) := kept

theorem keeps_ite (c : Prop) [Decidable c] {yes no : Exec σ ε π α} (onYes : Keeps R yes)
    (onNo : Keeps R no) : Keeps R (if c then yes else no) := by
  split
  · exact onYes
  · exact onNo

theorem keeps_attempt (keeps : Keeps R call) : Keeps R (attempt call) := by
  intro s
  have one := keeps s
  simp only [attempt]
  rcases h : call s with ⟨_ | _ | _, t⟩ <;> simpa only [h] using one

variable [IsPreorder σ R]

theorem keeps_pure (value : α) : Keeps R (pure value : Exec σ ε π α) := fun s => Std.Refl.refl s

theorem keeps_read : Keeps R (read : Exec σ ε π σ) := fun s => Std.Refl.refl s

theorem keeps_fail (code : ε) : Keeps R (fail code : Exec σ ε π α) := fun s => Std.Refl.refl s

theorem keeps_panic (site : π) : Keeps R (panic site : Exec σ ε π α) := fun s => Std.Refl.refl s

theorem keeps_assert (condition : Bool) (site : π) :
    Keeps R (assert condition site : Exec σ ε π Unit) := by
  cases condition
  · exact keeps_panic site
  · exact keeps_pure ()

theorem keeps_give (result : Except ε α) : Keeps R (give result : Exec σ ε π α) := by
  cases result
  · exact keeps_fail _
  · exact keeps_pure _

theorem keeps_bind {next : α → Exec σ ε π β} (first : Keeps R call)
    (rest : ∀ value, Keeps R (next value)) : Keeps R (call >>= next) := by
  intro s
  have one := first s
  simp only [bind]
  rcases h : call s with ⟨_ | _ | _, t⟩
  · simp only [h] at one ⊢
    exact IsTrans.trans _ _ _ one (rest _ t)
  · simpa only [h] using one
  · simpa only [h] using one

theorem keeps_loop {body : Nat → α → Exec σ ε π α} (keeps : ∀ i locals, Keeps R (body i locals))
    (count i : Nat) (locals : α) : Keeps R (loop body count i locals) := by
  induction count generalizing i locals with
  | zero => exact keeps_pure locals
  | succ count ih => exact keeps_bind (keeps i locals) fun next => ih (i + 1) next

end Keeps

end Exec

export Exec (read put modify fail panic assert attempt give zoom mapPanic loop wp_pure wp_fail
  wp_panic wp_read wp_put wp_modify wp_bind wp_assert wp_attempt wp_give_ok wp_give_error wp_zoom
  wp_mapPanic bind_ok bind_congr wp_ite wp_mono wp_imp wp_ends wp_safe wp_total wp_sure
  wp_errless wp_liberal wp_through wp_and wp_ok wp_err wp_halt wp_of_ok wp_self wp_after wp_returns
  wp_fails wp_ran not_wp_of_wp wp_iff wp_loop wp_loop_zero)

end Os161
