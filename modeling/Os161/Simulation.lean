import Os161.Exec

/-! Objects with operations, and what they stand for. A trace is a sequence of calls with what
each of them answered. An object simulates a specification when every call that is allowed comes
back with an answer the specification admits; then so does every sequence of calls. Nothing here
mentions a particular object. -/
namespace Os161

section
variable {σ τ ε π ρ ι : Type}

/-- A sequence of calls, each allowed where it was made, with their answers. -/
inductive Calls (run : ι → Exec σ ε π ρ) (legal : ι → σ → Prop) :
    σ → List (ι × Except ε ρ) → σ → Prop
  | nil (s : σ) : Calls run legal s [] s
  | cons {s t u : σ} {op : ι} {answer : Except ε ρ} {rest : List (ι × Except ε ρ)}
      (allowed : legal op s) (made : (run op).attempt s = (.ok answer, t))
      (later : Calls run legal t rest u) : Calls run legal s ((op,answer) :: rest) u

/-- A sequence of calls and answers that a specification admits. -/
inductive Admits (spec : ι → τ → Except ε ρ → τ → Prop) : τ → List (ι × Except ε ρ) → τ → Prop
  | nil (a : τ) : Admits spec a [] a
  | cons {a b c : τ} {op : ι} {answer : Except ε ρ} {rest : List (ι × Except ε ρ)}
      (first : spec op a answer b) (later : Admits spec b rest c) :
      Admits spec a ((op,answer) :: rest) c

/-- Every call that is allowed comes back, with an answer that the specification admits, and leaves
the object related to what the specification goes on with. -/
def Simulates (run : ι → Exec σ ε π ρ) (legal : ι → σ → Prop)
    (spec : ι → τ → Except ε ρ → τ → Prop) (R : σ → τ → Prop) : Prop :=
  ∀ op s a, R s a → legal op s →
    (run op).wp s (fun value t => ∃ b, spec op a (.ok value) b ∧ R t b)
      (fun code t => ∃ b, spec op a (.error code) b ∧ R t b) (fun _ _ => False)

variable {run : ι → Exec σ ε π ρ} {legal : ι → σ → Prop} {spec : ι → τ → Except ε ρ → τ → Prop}
  {R : σ → τ → Prop} {s t : σ} {a : τ} {op : ι} {answer : Except ε ρ}

theorem Simulates.step (simulates : Simulates run legal spec R) (related : R s a)
    (allowed : legal op s) (made : (run op).attempt s = (.ok answer, t)) :
    ∃ b, spec op a answer b ∧ R t b := by
  have holds : ((run op).attempt).wp s (fun answer t => ∃ b, spec op a answer b ∧ R t b)
      never never := by
    rw [wp_attempt]
    exact simulates op s a related allowed
  exact wp_ok holds made

theorem Calls.next {rest : List (ι × Except ε ρ)} (allowed : legal op s)
    (answers : ((run op).attempt s).1 = .ok answer)
    (later : Calls run legal ((run op).attempt s).2 rest t) :
    Calls run legal s ((op,answer) :: rest) t :=
  .cons allowed (Prod.ext answers rfl) later

/-- The invariant rule: what every allowed call keeps, whether it succeeds or fails, holds after any
sequence of calls. -/
theorem Calls.invariant {P : σ → Prop} {trace : List (ι × Except ε ρ)}
    (keeps : ∀ op s, P s → legal op s → (run op).wp s (fun _ => P) (fun _ => P) fun _ _ => True)
    (calls : Calls run legal s trace t) (start : P s) : P t := by
  induction calls with
  | nil s => exact start
  | @cons s t u op answer rest allowed made later ih =>
    have first : ((run op).attempt).wp s (fun _ => P) never (fun _ _ => True) := by
      rw [wp_attempt]
      exact keeps op s start allowed
    exact ih (wp_ok first made)

theorem Simulates.calls (simulates : Simulates run legal spec R) {trace : List (ι × Except ε ρ)}
    (calls : Calls run legal s trace t) (related : R s a) : ∃ b, Admits spec a trace b ∧ R t b := by
  induction calls generalizing a with
  | nil s => exact ⟨a,.nil a,related⟩
  | cons allowed made later ih =>
    obtain ⟨b,first,relatedB⟩ := simulates.step related allowed made
    obtain ⟨c,rest,relatedC⟩ := ih relatedB
    exact ⟨c,.cons first rest,relatedC⟩

theorem Simulates.returns (simulates : Simulates run legal spec R) (related : R s a)
    (allowed : legal op s) : ∃ answer t, (run op).attempt s = (.ok answer, t) := by
  have holds : ((run op).attempt).wp s (fun _ _ => True) never never := by
    rw [wp_attempt]
    exact wp_ends (simulates op s a related allowed) (fun _ _ _ => trivial)
      (fun _ _ _ => trivial)
  obtain ⟨answer,t,made,-⟩ := wp_returns holds
  exact ⟨answer,t,made⟩

end

end Os161
