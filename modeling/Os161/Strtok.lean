import Mathlib.Data.List.Forall2
import Os161.Exec

/-! `lib/libc/strtok_r.c`, and the two loops of `main/menu.c` that use it, one inside the other. A
token is found in place: its end is overwritten with a NUL, and the context points behind it. -/
namespace Os161

/-- The maximal runs of elements that are not separators. -/
def runs (sep : α → Bool) (l : List α) : List (List α) := (l.splitOnP sep).filter (! ·.isEmpty)

section Runs
variable {sep : α → Bool} {c : α} {l w : List α}

theorem runs_skip (separators : ∀ x ∈ w, sep x = true) : runs sep (w ++ l) = runs sep l := by
  induction w with
  | nil => rfl
  | cons c w ih =>
    have first := List.splitOnP_append_cons [] (w ++ l) (separators c (List.mem_cons_self))
    rw [← ih fun x member => separators x (List.mem_cons_of_mem c member),List.cons_append]
    rw [List.nil_append] at first
    simp [runs,first]

theorem runs_single (some_ : w ≠ []) (word : ∀ x ∈ w, sep x = false) : runs sep w = [w] := by
  simp [runs,List.splitOnP_eq_singleton word,some_]

theorem runs_first (some_ : w ≠ []) (word : ∀ x ∈ w, sep x = false) (separator : sep c = true) :
    runs sep (w ++ c :: l) = w :: runs sep l := by
  simp [runs,List.splitOnP_append_cons_of_forall_mem word c separator l,some_]

end Runs

/-- Whether `strchr` finds the character in a string. It finds the NUL at the end, too. -/
def strchr : List UInt8 → UInt8 → Bool
  | [], ch => ch == 0
  | c :: rest, ch => c == ch || strchr rest ch

/-- The memory around a string. Only the bytes from `first` to `last` may be accessed. -/
structure CharBuf where
  mem : Nat → UInt8
  first : Nat
  last : Nat

/-- What stops the machine: an access outside the buffer, a loop that makes more calls than it is
given, a command, or `panic("Failure processing kernel arguments\n")`. -/
inductive Stop where
  | load (a : Nat) | store (a : Nat)
  | calls
  | command
  | kernelArguments
  deriving DecidableEq, Repr

namespace CharBuf

def load (a : Nat) : Exec CharBuf ε Stop UInt8 := do
  let s ← read
  assert (s.first ≤ a ∧ a ≤ s.last) (.load a)
  return s.mem a

def store (a : Nat) (c : UInt8) : Exec CharBuf ε Stop Unit := do
  let s ← read
  assert (s.first ≤ a ∧ a ≤ s.last) (.store a)
  put { s with mem := fun b => if b = a then c else s.mem b }

/-- `while (*p && keep(*p)) p++;` The loop has `turns` more turns before it leaves the buffer. -/
def skip (keep : UInt8 → Bool) : Nat → Nat → Exec CharBuf ε Stop Nat
  | 0, p => panic (.load p)
  | turns + 1, p => do
    let c ← load p
    if c ≠ 0 ∧ keep c = true then skip keep turns (p + 1) else return p

def skipWhile (keep : UInt8 → Bool) (p : Nat) : Exec CharBuf ε Stop Nat := do
  skip keep ((← read).last + 1 - p) p

/-- `strtok_r(string, seps, &context)`, which returns the token and the new context. -/
def strtokR (string : Option Nat) (seps : List UInt8) (context : Option Nat) :
    Exec CharBuf ε Stop (Option Nat × Option Nat) := do
  match string.or context with
  | none => return (none,none)
  | some head =>
    let head ← skipWhile (strchr seps) head
    if (← load head) = 0 then return (none,none)
    else
      let tail ← skipWhile (! strchr seps ·) head
      if (← load tail) = 0 then return (some head,none)
      else
        store tail 0
        return (some head,some (tail + 1))

/-- `for (word = strtok_r(string, seps, &context); word != NULL; word = strtok_r(NULL, seps,
&context))`, with at most `calls` calls. -/
def forTokens (seps : List UInt8) (body : Nat → α → Exec CharBuf ε Stop α) :
    Nat → Option Nat → Option Nat → α → Exec CharBuf ε Stop α
  | 0, _, _, _ => panic .calls
  | calls + 1, string, context, locals => do
    let (word,context) ← strtokR string seps context
    match word with
    | none => return locals
    | some word => forTokens seps body calls none context (← body word locals)

def collect (word : Nat) (found : List Nat) : Exec CharBuf ε Stop (List Nat) := pure (found ++ [word])

def tokens (seps : List UInt8) (calls string : Nat) : Exec CharBuf ε Stop (List Nat) :=
  forTokens seps collect calls (some string) none []

def cstringFrom (mem : Nat → UInt8) : Nat → Nat → List UInt8
  | 0, _ => []
  | length + 1, p => if mem p = 0 then [] else mem p :: cstringFrom mem length (p + 1)

def cstring (s : CharBuf) (p : Nat) : List UInt8 := cstringFrom s.mem (s.last + 1 - p) p

def splitPiece (inner : List UInt8) (calls piece : Nat) (groups : List (List (List UInt8))) :
    Exec CharBuf ε Stop (List (List (List UInt8))) := do
  let words ← tokens inner calls piece
  return groups ++ [words.map (← read).cstring]

/-- Each token of a string is itself split, before the next one is asked for. -/
def nestedTokens (outer inner : List UInt8) (calls string : Nat) :
    Exec CharBuf ε Stop (List (List (List UInt8))) :=
  forTokens outer (splitPiece inner calls) calls (some string) none []

/-! Strings in memory -/

def Holds (s : CharBuf) (a : Nat) (c : UInt8) : Prop := s.first ≤ a ∧ a ≤ s.last ∧ s.mem a = c

def Text (s : CharBuf) : Nat → List UInt8 → Prop
  | p, [] => s.Holds p 0
  | p, c :: rest => c ≠ 0 ∧ s.Holds p c ∧ s.Text (p + 1) rest

instance decidableText (s : CharBuf) : (p : Nat) → (txt : List UInt8) → Decidable (s.Text p txt)
  | _, [] => inferInstanceAs (Decidable (_ ∧ _ ∧ _))
  | p, _ :: rest =>
    have := decidableText s (p + 1) rest
    inferInstanceAs (Decidable (_ ∧ (_ ∧ _ ∧ _) ∧ _))

structure Kept (low high : Nat) (s t : CharBuf) : Prop where
  first : t.first = s.first
  last : t.last = s.last
  mem : ∀ a, a < low ∨ high ≤ a → t.mem a = s.mem a

section Strings
variable {s t u : CharBuf} {p q low high low' high' : Nat} {txt rest w : List UInt8} {c : UInt8}

theorem Kept.refl (low high : Nat) (s : CharBuf) : Kept low high s s := ⟨rfl,rfl,fun _ _ => rfl⟩

theorem Kept.trans (first : Kept low high s t) (second : Kept low high t u) : Kept low high s u where
  first := second.first.trans first.first
  last := second.last.trans first.last
  mem a outside := (second.mem a outside).trans (first.mem a outside)

theorem Kept.widen (kept : Kept low high s t) (left : low' ≤ low) (right : high ≤ high') :
    Kept low' high' s t :=
  ⟨kept.first,kept.last,fun a outside => kept.mem a (by omega)⟩

theorem Kept.holds (kept : Kept low high s t) (outside : p < low ∨ high ≤ p) (holds : s.Holds p c) :
    t.Holds p c :=
  ⟨kept.first ▸ holds.1,kept.last ▸ holds.2.1,(kept.mem p outside).trans holds.2.2⟩

theorem Kept.text (kept : Kept low high s t) (outside : p + txt.length < low ∨ high ≤ p)
    (text : s.Text p txt) : t.Text p txt := by
  induction txt generalizing p with
  | nil => exact kept.holds outside text
  | cons c rest ih =>
    rw [List.length_cons] at outside
    exact ⟨text.1,kept.holds (by omega) text.2.1,ih (by omega) text.2.2⟩

theorem Text.drop (text : s.Text p (w ++ rest)) : s.Text (p + w.length) rest := by
  induction w generalizing p with
  | nil => exact text
  | cons c w ih =>
    rw [List.length_cons,Nat.add_comm w.length,← Nat.add_assoc]
    exact ih text.2.2

theorem Text.behind (text : s.Text p (w ++ c :: rest)) : s.Holds (p + w.length) c := text.drop.2.1

theorem Text.cut (text : s.Text p (w ++ c :: rest)) (kept : Kept (p + w.length) (p + w.length + 1) s t)
    (nul : t.mem (p + w.length) = 0) : t.Text p w := by
  induction w generalizing p with
  | nil =>
    have holds := text.2.1
    exact ⟨kept.first ▸ holds.1,kept.last ▸ holds.2.1,nul⟩
  | cons b w ih =>
    rw [List.length_cons,Nat.add_comm w.length,← Nat.add_assoc] at kept nul
    exact ⟨text.1,kept.holds (.inl (by omega)) text.2.1,ih text.2.2 kept nul⟩

theorem Text.cstring (text : s.Text p txt) : s.cstring p = txt := by
  induction txt generalizing p with
  | nil =>
    obtain ⟨_,inside,nul⟩ := text
    rw [CharBuf.cstring,Nat.sub_add_comm inside,cstringFrom,if_pos nul]
  | cons c rest ih =>
    obtain ⟨nonzero,⟨_,inside,char⟩,later⟩ := text
    have tail := ih later
    rw [CharBuf.cstring,Nat.add_sub_add_right] at tail
    rw [CharBuf.cstring,Nat.sub_add_comm inside,cstringFrom,if_neg (char ▸ nonzero),char,tail]

end Strings

/-! One call -/

section Call
variable {s t : CharBuf} {p : Nat} {txt rest w : List UInt8} {c : UInt8} {keep : UInt8 → Bool}
  {err : ε → CharBuf → Prop} {halt : Stop → CharBuf → Prop}

theorem wp_load {ok : UInt8 → CharBuf → Prop} (holds : s.Holds p c) (loaded : ok c s) :
    (load p).wp s ok err halt := by
  rw [load,wp_bind,wp_read,wp_bind,wp_assert,
    if_pos (decide_eq_true ⟨holds.1,holds.2.1⟩),wp_pure,holds.2.2]
  exact loaded

theorem Text.holds (text : s.Text p txt) : s.Holds p (txt.headD 0) := by
  cases txt with
  | nil => exact text
  | cons c rest => exact text.2.1

theorem skip_spec {turns : Nat} {ok : Nat → CharBuf → Prop} (text : s.Text p (w ++ rest))
    (skipped : ∀ c ∈ w, keep c = true) (stop : ∀ c ∈ rest.head?, keep c = false)
    (enough : w.length < turns) (stopped : ok (p + w.length) s) :
    (skip keep turns p).wp s ok err halt := by
  induction turns generalizing p w with
  | zero => omega
  | succ turns ih =>
    rw [skip,wp_bind]
    apply wp_load text.holds
    rw [wp_ite]
    cases w with
    | nil =>
      refine ⟨fun more => ?_,fun _ => stopped⟩
      cases rest with
      | nil => exact absurd rfl more.1
      | cons c rest => exact absurd more.2 (by simpa using stop c rfl)
    | cons c w =>
      refine ⟨fun _ => ?_,fun ended => ?_⟩
      · apply ih text.2.2 fun c member => skipped c (List.mem_cons_of_mem _ member)
        · rw [List.length_cons] at enough
          omega
        · rw [List.length_cons] at stopped
          rw [Nat.add_right_comm]
          exact stopped
      · exact absurd ⟨text.1,skipped c List.mem_cons_self⟩ ended

theorem Text.inside (text : s.Text p txt) : p + txt.length ≤ s.last := by
  induction txt generalizing p with
  | nil => exact text.2.1
  | cons c rest ih =>
    have := ih text.2.2
    rw [List.length_cons]
    omega

theorem skipWhile_spec {ok : Nat → CharBuf → Prop} (text : s.Text p (w ++ rest))
    (skipped : ∀ c ∈ w, keep c = true) (stop : ∀ c ∈ rest.head?, keep c = false)
    (stopped : ok (p + w.length) s) : (skipWhile keep p).wp s ok err halt := by
  have inside := text.inside
  rw [List.length_append] at inside
  rw [skipWhile,wp_bind,wp_read]
  exact skip_spec text skipped stop (by omega) stopped

theorem exists_front (keep : UInt8 → Bool) (txt : List UInt8) :
    ∃ w rest, txt = w ++ rest ∧ (∀ c ∈ w, keep c = true) ∧ ∀ c ∈ rest.head?, keep c = false := by
  refine ⟨txt.takeWhile keep,txt.dropWhile keep,List.takeWhile_append_dropWhile.symm,?_,?_⟩
  · exact List.all_eq_true.mp List.all_takeWhile
  · intro c first
    have stopped := List.head?_dropWhile_not keep txt
    rw [Option.mem_def.mp first] at stopped
    simpa using stopped

/-- What a call of `strtok_r` finds in the string at `p`. -/
inductive Cut (seps : List UInt8) (s : CharBuf) (p : Nat) (txt : List UInt8) :
    Option Nat × Option Nat → CharBuf → Prop
  | none (empty : runs (strchr seps) txt = []) : Cut seps s p txt (none,none) s
  | last {head : Nat} {w : List UInt8} (only : runs (strchr seps) txt = [w]) (low : p ≤ head)
      (high : head + w.length ≤ p + txt.length) (word : s.Text head w) : Cut seps s p txt (some head,none) s
  | more {head : Nat} {w rest : List UInt8} {t : CharBuf}
      (first : runs (strchr seps) txt = w :: runs (strchr seps) rest) (low : p ≤ head)
      (high : head + w.length + 1 + rest.length = p + txt.length)
      (kept : Kept (head + w.length) (head + w.length + 1) s t) (word : t.Text head w)
      (later : t.Text (head + w.length + 1) rest) :
      Cut seps s p txt (some head,some (head + w.length + 1)) t

theorem strtokR_spec (seps : List UInt8) {string context : Option Nat} (start : string.or context = some p)
    (text : s.Text p txt) :
    (strtokR string seps context : Exec CharBuf ε Stop _).wp s (Cut seps s p txt) never never := by
  obtain ⟨front,rest,rfl,separators,begins⟩ := exists_front (strchr seps) txt
  rw [strtokR,start]
  simp only
  rw [wp_bind]
  apply skipWhile_spec text separators begins
  have there := text.drop
  rw [wp_bind]
  apply wp_load there.holds
  rw [wp_ite]
  cases rest with
  | nil => exact ⟨fun _ => .none (runs_skip separators),fun more => absurd rfl more⟩
  | cons c rest =>
    refine ⟨fun ended => absurd ended there.1,fun _ => ?_⟩
    have nonSep : strchr seps c = false := begins c rfl
    obtain ⟨w,after,split_,word,ends⟩ := exists_front (! strchr seps ·) (c :: rest)
    have some_ : w ≠ [] := by
      rintro rfl
      rw [List.nil_append] at split_
      subst split_
      simpa [nonSep] using ends c rfl
    simp only [Bool.not_eq_true',Bool.not_eq_false'] at word ends
    rw [split_] at there text ⊢
    rw [wp_bind]
    apply skipWhile_spec there (by simpa using word) (by simpa using ends)
    rw [wp_bind]
    apply wp_load there.drop.holds
    rw [wp_ite]
    cases after with
    | nil =>
      rw [List.append_nil] at there ⊢
      refine ⟨fun _ => .last ?_ (by omega) ?_ there,fun more => absurd rfl more⟩
      · rw [runs_skip separators,runs_single some_ word]
      · rw [List.length_append]
        omega
    | cons d after =>
      have behind := there.behind
      refine ⟨fun ended => absurd ended there.drop.1,fun _ => ?_⟩
      rw [store]
      simp only [wp_bind,wp_read,wp_assert,wp_put,wp_pure]
      rw [if_pos (decide_eq_true ⟨behind.1,behind.2.1⟩)]
      have kept : Kept (p + front.length + w.length) (p + front.length + w.length + 1) s
          { s with mem := fun b => if b = p + front.length + w.length then 0 else s.mem b } :=
        ⟨rfl,rfl,fun a outside => if_neg (by omega)⟩
      refine .more ?_ (by omega) ?_ kept (there.cut kept (if_pos rfl)) (kept.text (.inr (by omega)) there.drop.2.2)
      · rw [runs_skip separators,runs_first some_ word (ends d rfl)]
      · simp only [List.length_append,List.length_cons]
        omega

end Call

/-! The loop -/

section Loop
variable {seps : List UInt8} {body : Nat → α → Exec CharBuf ε Stop α}
  {inv : List (List UInt8) → Nat → α → CharBuf → Prop} {failed : ε → Prop} {halted : Stop → Prop}
  {all : List (List UInt8)} {high : Nat}

/-- The runs `ws` are still to be found, between `low` and `high`. -/
def Pending (seps : List UInt8) (context : Option Nat) (ws : List (List UInt8)) (low high : Nat)
    (s : CharBuf) : Prop :=
  match context with
  | none => ws = []
  | some q => ∃ txt, s.Text q txt ∧ runs (strchr seps) txt = ws ∧ low ≤ q ∧ q + txt.length < high

/-- `inv done low` holds between two turns: the runs in `done`, a part of `all`, have been found, and
nothing from `low` on has been looked at. The body changes nothing but the token it is given. -/
structure LoopInvariant (body : Nat → α → Exec CharBuf ε Stop α)
    (inv : List (List UInt8) → Nat → α → CharBuf → Prop) (failed : ε → Prop) (halted : Stop → Prop)
    (all : List (List UInt8)) (high : Nat) : Prop where
  stable : ∀ {done low low' locals s t}, inv done low locals s → low ≤ low' → Kept low high s t →
    inv done low' locals t
  turn : ∀ {done low locals s head w}, inv done low locals s → done ++ [w] <+: all → low ≤ head →
    s.Text head w → head + w.length < high → (body head locals).wp s
      (fun locals t => inv (done ++ [w]) (head + w.length + 1) locals t ∧
        Kept head (head + w.length + 1) s t)
      (fun code t => failed code ∧ Kept head (head + w.length + 1) s t)
      fun site _ => halted site

theorem wp_forTokens (rule : LoopInvariant body inv failed halted all high) {calls low : Nat}
    {string context : Option Nat} {done ws : List (List UInt8)} {locals : α} {s : CharBuf}
    (whole : done ++ ws = all) (pending : Pending seps (string.or context) ws low high s)
    (enough : ws.length < calls) (now : inv done low locals s) :
    (forTokens seps body calls string context locals).wp s
      (fun locals t => (∃ low, inv all low locals t) ∧ Kept low high s t)
      (fun code t => failed code ∧ Kept low high s t)
      fun site _ => halted site := by
  induction calls generalizing string context done ws low locals s with
  | zero => omega
  | succ calls ih =>
    -- the turns after one that has found `w`, from a state `t` with the rest still in place
    have next {head : Nat} {w : List UInt8} {ws' : List (List UInt8)} {context : Option Nat}
        {t : CharBuf} (found : ws = w :: ws') (low_ : low ≤ head) (high_ : head + w.length < high)
        (word : t.Text head w) (reached : inv done low locals t) (kept : Kept low high s t)
        (rest : ∀ u, Kept head (head + w.length + 1) t u →
          Pending seps context ws' (head + w.length + 1) high u) :
        (body head locals >>= forTokens seps body calls none context).wp t
          (fun locals t => (∃ low, inv all low locals t) ∧ Kept low high s t)
          (fun code t => failed code ∧ Kept low high s t) fun site _ => halted site := by
      subst found
      have append : done ++ [w] ++ ws' = all := by rw [← whole,List.append_assoc,List.singleton_append]
      rw [List.length_cons] at enough
      rw [wp_bind]
      apply wp_ends (rule.turn reached ⟨ws',append⟩ low_ word high_)
      · rintro locals' u ⟨after,changed⟩
        have sofar := kept.trans (changed.widen low_ (Nat.succ_le_of_lt high_))
        have pending : Pending seps (Option.or none context) ws' (head + w.length + 1) high u :=
          rest u changed
        apply wp_ends (ih append pending (by omega) after)
        · rintro locals' v ⟨ended,later⟩
          exact ⟨ended,sofar.trans (later.widen (by omega) (Nat.le_refl _))⟩
        · rintro code v ⟨ended,later⟩
          exact ⟨ended,sofar.trans (later.widen (by omega) (Nat.le_refl _))⟩
      · rintro code u ⟨stopped,changed⟩
        exact ⟨stopped,kept.trans (changed.widen low_ (Nat.succ_le_of_lt high_))⟩
    rw [forTokens,wp_bind]
    cases start : string.or context with
    | none =>
      rw [start] at pending
      obtain rfl : ws = [] := pending
      rw [List.append_nil] at whole
      rw [strtokR,start,← whole]
      exact ⟨⟨low,now⟩,.refl low high s⟩
    | some q =>
      rw [start] at pending
      obtain ⟨txt,text,rfl,lowQ,highQ⟩ := pending
      apply wp_total (strtokR_spec seps start text)
      rintro result t cut
      cases cut with
      | none empty =>
        rw [empty,List.append_nil] at whole
        rw [← whole]
        exact ⟨⟨low,now⟩,.refl low high s⟩
      | last only low_ high_ word =>
        exact next only (by omega) (by omega) word now (.refl low high s) fun _ _ => rfl
      | more first low_ high_ kept word later =>
        have changed := kept.widen (show low ≤ _ by omega) (show _ ≤ high by omega)
        refine next first (by omega) (by omega) word (rule.stable now (Nat.le_refl _) changed)
          changed fun u kept' => ⟨_,kept'.text (.inr (Nat.le_refl _)) later,rfl,?_,?_⟩
        · exact Nat.le_refl _
        · omega

theorem wp_allTokens {s : CharBuf} {p calls : Nat} {txt : List UInt8} {locals : α}
    (rule : LoopInvariant body inv failed halted (runs (strchr seps) txt) (p + txt.length + 1))
    (text : s.Text p txt) (enough : (runs (strchr seps) txt).length < calls) (start : inv [] p locals s) :
    (forTokens seps body calls (some p) none locals).wp s
      (fun locals t => (∃ low, inv (runs (strchr seps) txt) low locals t) ∧ Kept p (p + txt.length + 1) s t)
      (fun code t => failed code ∧ Kept p (p + txt.length + 1) s t)
      fun site _ => halted site :=
  wp_forTokens rule (List.nil_append _) ⟨txt,text,rfl,Nat.le_refl p,Nat.lt_succ_self _⟩ enough start

end Loop

/-! Collecting the tokens -/

section Collect
variable {s t : CharBuf} {p low high : Nat} {txt w : List UInt8} {done : List (List UInt8)}
  {found : List Nat}

def Token (p high : Nat) (s : CharBuf) (h : Nat) (w : List UInt8) : Prop :=
  s.Text h w ∧ p ≤ h ∧ h + w.length < high

structure Collected (p high : Nat) (done : List (List UInt8)) (low : Nat) (found : List Nat)
    (s : CharBuf) : Prop where
  low_ : p ≤ low
  tokens : List.Forall₂ (fun h w => Token p high s h w ∧ h + w.length < low) found done

theorem Collected.stable {low' : Nat} (collected : Collected p high done low found s) (up : low ≤ low')
    (kept : Kept low high s t) : Collected p high done low' found t := by
  refine ⟨Nat.le_trans collected.low_ up,collected.tokens.imp ?_⟩
  rintro h w ⟨⟨text,inside⟩,below⟩
  exact ⟨⟨kept.text (.inl below) text,inside⟩,by omega⟩

theorem Collected.snoc {head : Nat} (collected : Collected p high done low found s) (start : low ≤ head)
    (word : s.Text head w) (inside : head + w.length < high) :
    Collected p high (done ++ [w]) (head + w.length + 1) (found ++ [head]) s := by
  have before := collected.stable (show low ≤ head + w.length + 1 by omega) (.refl low high s)
  refine ⟨before.low_,List.rel_append before.tokens (.cons ⟨⟨word,?_,inside⟩,?_⟩ .nil)⟩
  · exact Nat.le_trans collected.low_ start
  · exact Nat.lt_succ_self _

theorem Collected.nil (p high : Nat) (s : CharBuf) : Collected p high [] p [] s := ⟨Nat.le_refl p,.nil⟩

theorem Collected.map_cstring (collected : Collected p high done low found s) :
    found.map s.cstring = done := by
  have strings := collected.tokens
  clear collected
  induction strings with
  | nil => rfl
  | cons first _ ih => rw [List.map_cons,ih,first.1.1.cstring]

theorem Collected.token {h : Nat} (collected : Collected p high done low found s) (member : h ∈ found) :
    ∃ w, Token p high s h w := by
  have strings := collected.tokens
  clear collected
  induction strings with
  | nil => cases member
  | cons first _ ih =>
    cases member with
    | head => exact ⟨_,first.1⟩
    | tail _ later => exact ih later

theorem tokens_spec {seps : List UInt8} {calls : Nat} (text : s.Text p txt)
    (enough : (runs (strchr seps) txt).length < calls) :
    (tokens seps calls p : Exec CharBuf ε Stop _).wp s
      (fun found t => (∃ low, Collected p (p + txt.length + 1) (runs (strchr seps) txt) low found t) ∧
        Kept p (p + txt.length + 1) s t) never never := by
  have rule : LoopInvariant (collect (ε := ε)) (Collected p (p + txt.length + 1)) (fun _ => False)
      (fun _ => False) (runs (strchr seps) txt) (p + txt.length + 1) := by
    refine ⟨Collected.stable,fun collected _ start word inside => ?_⟩
    exact ⟨collected.snoc start word inside,.refl _ _ _⟩
  apply wp_ends (wp_allTokens rule text enough (.nil p _ s))
  · exact fun _ _ ended => ended
  · exact fun _ _ ended => ended.1

theorem nestedTokens_spec {outer inner : List UInt8} {calls : Nat} (text : s.Text p txt)
    (enoughOuter : (runs (strchr outer) txt).length < calls)
    (enough : ∀ piece ∈ runs (strchr outer) txt, (runs (strchr inner) piece).length < calls) :
    (nestedTokens outer inner calls p : Exec CharBuf ε Stop _).wp s
      (fun groups _ => groups = (runs (strchr outer) txt).map (runs (strchr inner)))
      never never := by
  have rule : LoopInvariant (splitPiece (ε := ε) inner calls)
      (fun done _ groups _ => groups = done.map (runs (strchr inner))) (fun _ => False) (fun _ => False)
      (runs (strchr outer) txt) (p + txt.length + 1) := by
    refine ⟨fun same _ _ => same,?_⟩
    rintro done low groups t head piece rfl front start word inside
    have member : piece ∈ runs (strchr outer) txt := front.subset (by simp)
    rw [splitPiece,wp_bind]
    apply wp_total (tokens_spec word (enough piece member))
    rintro words u ⟨⟨_,collected⟩,kept⟩
    rw [wp_bind,wp_read,wp_pure,collected.map_cstring,List.map_append]
    exact ⟨rfl,kept⟩
  apply wp_ends (wp_allTokens rule text enoughOuter rfl)
  · rintro groups t ⟨⟨_,same⟩,_⟩
    exact same
  · exact fun _ _ ended => ended.1

end Collect

end CharBuf

/-! `menu.c` -/

open CharBuf

inductive CmdError where
  | e2big | einval
  | failed (code : Int)
  deriving DecidableEq, Repr

/-- An entry of `cmdtable`. What a command does to the rest of the kernel is left out. -/
structure Command where
  name : List UInt8
  func : List Nat → Exec CharBuf CmdError Stop Unit

def maxMenuArgs : Nat := 16

def blanks : List UInt8 := [32,9]

def semicolon : List UInt8 := [59]

def addArg (word : Nat) (args : List Nat) : Exec CharBuf CmdError Stop (List Nat) :=
  if args.length ≥ maxMenuArgs then fail .e2big else pure (args ++ [word])

/-- `cmd_dispatch(cmd)`: the words in `args`, and the code that is returned. -/
def cmdDispatch (cmdtable : List Command) (calls cmd : Nat) :
    Exec CharBuf CmdError Stop (List (List UInt8) × Except CmdError Unit) := do
  let collected ← attempt (forTokens blanks addArg calls (some cmd) none [])
  match collected with
  | .error code => return ([],.error code)
  | .ok args =>
    let argv := args.map (← read).cstring
    match argv with
    | [] => return ([],.ok ())
    | first :: _ =>
      match cmdtable.find? fun entry => entry.name ≠ [] ∧ first = entry.name with
      | some entry => return (argv,← attempt (entry.func args))
      | none => return (argv,.error .einval)

/-- The body of the loop in `menu_execute`. -/
def runCommand (cmdtable : List Command) (isargs : Bool) (calls command : Nat)
    (argvs : List (List (List UInt8))) : Exec CharBuf CmdError Stop (List (List (List UInt8))) := do
  let (argv,result) ← cmdDispatch cmdtable calls command
  match result with
  | .ok _ => return argvs ++ [argv]
  | .error _ => if isargs then panic .kernelArguments else return argvs ++ [argv]

/-- `menu_execute(line, isargs)`: the argument vectors of its commands. -/
def menuExecute (cmdtable : List Command) (isargs : Bool) (calls line : Nat) :
    Exec CharBuf CmdError Stop (List (List (List UInt8))) :=
  forTokens semicolon (runCommand cmdtable isargs calls) calls (some line) none []

section Menu
variable {cmdtable : List Command} {s : CharBuf} {p calls : Nat} {txt : List UInt8}

/-- Commands may write to their arguments, as `cmd_mount` does, and may halt the machine. -/
def WritesArguments (cmdtable : List Command) : Prop :=
  ∀ entry ∈ cmdtable, ∀ args s low high,
    (∀ h ∈ args, ∃ w, Token low high s h w) →
    (entry.func args).wp s (fun _ t => Kept low high s t) (fun _ t => Kept low high s t)
      fun site _ => site = .command

def argVector (command : List UInt8) : List (List UInt8) :=
  if (runs (strchr blanks) command).length ≤ maxMenuArgs then runs (strchr blanks) command else []

theorem addArg_spec (text : s.Text p txt) (enough : (runs (strchr blanks) txt).length < calls) :
    (forTokens blanks addArg calls (some p) none []).wp s
      (fun args t => ((∃ low, Collected p (p + txt.length + 1) (runs (strchr blanks) txt) low args t) ∧
        (runs (strchr blanks) txt).length ≤ maxMenuArgs) ∧ Kept p (p + txt.length + 1) s t)
      (fun _ t => maxMenuArgs < (runs (strchr blanks) txt).length ∧ Kept p (p + txt.length + 1) s t)
      never := by
  have rule : LoopInvariant addArg
      (fun done low args t => Collected p (p + txt.length + 1) done low args t ∧ args.length ≤ maxMenuArgs)
      (fun _ => maxMenuArgs < (runs (strchr blanks) txt).length) (fun _ => False)
      (runs (strchr blanks) txt) (p + txt.length + 1) := by
    refine ⟨fun now up kept => ⟨now.1.stable up kept,now.2⟩,?_⟩
    rintro done low args t head w ⟨collected,room⟩ front start word inside
    rw [addArg,wp_ite]
    refine ⟨fun full => ⟨?_,.refl _ _ _⟩,fun more => ⟨⟨collected.snoc start word inside,?_⟩,.refl _ _ _⟩⟩
    · have shorter := front.length_le
      rw [List.length_append,← collected.tokens.length_eq,List.length_singleton] at shorter
      omega
    · rw [List.length_append,List.length_singleton]
      omega
  apply wp_ends (wp_allTokens rule text enough ⟨.nil p _ s,Nat.zero_le _⟩)
  · rintro args t ⟨⟨low,collected,room⟩,kept⟩
    exact ⟨⟨⟨low,collected⟩,collected.tokens.length_eq ▸ room⟩,kept⟩
  · exact fun _ _ ended => ended

theorem cmdDispatch_spec (writes : WritesArguments cmdtable) (text : s.Text p txt)
    (enough : (runs (strchr blanks) txt).length < calls) :
    (cmdDispatch cmdtable calls p).wp s
      (fun result t => result.1 = argVector txt ∧ Kept p (p + txt.length + 1) s t)
      never fun site _ => site = .command := by
  rw [cmdDispatch,wp_bind,wp_attempt]
  apply wp_safe (addArg_spec text enough)
  · rintro args t ⟨⟨⟨low,collected⟩,room⟩,kept⟩
    have argv : argVector txt = runs (strchr blanks) txt := if_pos room
    simp only [wp_bind,wp_read,collected.map_cstring]
    rw [argv]
    cases words : runs (strchr blanks) txt with
    | nil => exact ⟨rfl,kept⟩
    | cons first rest =>
      simp only
      split
      · rename_i entry entryFound
        rw [wp_bind,wp_attempt]
        apply wp_ends (writes entry (List.mem_of_find?_eq_some entryFound) args t _ _
          fun _ => collected.token)
        · exact fun _ _ changed => ⟨rfl,kept.trans changed⟩
        · exact fun _ _ changed => ⟨rfl,kept.trans changed⟩
      · exact ⟨rfl,kept⟩
  · rintro code t ⟨many,kept⟩
    exact ⟨(if_neg (Nat.not_le_of_lt many)).symm,kept⟩

theorem menuExecute_spec (writes : WritesArguments cmdtable) (isargs : Bool) (text : s.Text p txt)
    (enoughOuter : (runs (strchr semicolon) txt).length < calls)
    (enough : ∀ command ∈ runs (strchr semicolon) txt, (runs (strchr blanks) command).length < calls) :
    (menuExecute cmdtable isargs calls p).wp s
      (fun argvs _ => argvs = (runs (strchr semicolon) txt).map argVector) never
      fun site _ => site = .command ∨ isargs = true ∧ site = .kernelArguments := by
  have rule : LoopInvariant (runCommand cmdtable isargs calls)
      (fun done _ argvs _ => argvs = done.map argVector) (fun _ => False)
      (fun site => site = .command ∨ isargs = true ∧ site = .kernelArguments)
      (runs (strchr semicolon) txt) (p + txt.length + 1) := by
    refine ⟨fun same _ _ => same,?_⟩
    rintro done low argvs t head command rfl front start word inside
    have member : command ∈ runs (strchr semicolon) txt := front.subset (by simp)
    rw [runCommand,wp_bind]
    apply wp_sure (cmdDispatch_spec writes word (enough command member))
    · rintro ⟨argv,result⟩ u ⟨rfl,kept⟩
      have logged : done.map argVector ++ [argVector command] = (done ++ [command]).map argVector := by
        rw [List.map_append,List.map_singleton]
      cases result with
      | ok _ => exact ⟨logged,kept⟩
      | error code =>
        cases isargs with
        | true => exact .inr ⟨rfl,rfl⟩
        | false => exact ⟨logged,kept⟩
    · exact fun _ _ halted => .inl halted
  apply wp_ends (wp_allTokens rule text enoughOuter rfl)
  · rintro argvs t ⟨⟨_,same⟩,_⟩
    exact same
  · exact fun _ _ ended => ended.1

end Menu

/-- Tokenising is splitting. The buffer ends with the NUL of the string, and all its tokens are found
in place, with one call more than there are tokens; and it makes no difference that each token is
itself split before the next one is looked for, as `menu_execute` and `cmd_dispatch` do. -/
theorem strtok_r_splits (mem : Nat → UInt8) (p : Nat) (txt : List UInt8)
    (text : Text ⟨mem,p,p + txt.length⟩ p txt) :
    (∀ seps calls, (runs (strchr seps) txt).length + 1 ≤ calls →
      (tokens seps calls p : Exec CharBuf Empty Stop _).wp ⟨mem,p,p + txt.length⟩
        (fun found t => List.Forall₂ t.Text found (runs (strchr seps) txt))
        (fun _ _ => False) fun _ _ => False) ∧
    (∀ outer inner calls, (runs (strchr outer) txt).length + 1 ≤ calls →
      (∀ piece ∈ runs (strchr outer) txt, (runs (strchr inner) piece).length + 1 ≤ calls) →
      (nestedTokens outer inner calls p : Exec CharBuf Empty Stop _).wp ⟨mem,p,p + txt.length⟩
        (fun groups _ => groups = (runs (strchr outer) txt).map (runs (strchr inner)))
        (fun _ _ => False) fun _ _ => False) ∧
    ∀ cmdtable isargs calls, WritesArguments cmdtable →
      (runs (strchr semicolon) txt).length + 1 ≤ calls →
      (∀ command ∈ runs (strchr semicolon) txt, (runs (strchr blanks) command).length + 1 ≤ calls) →
      (menuExecute cmdtable isargs calls p).wp ⟨mem,p,p + txt.length⟩
        (fun argvs _ => argvs = (runs (strchr semicolon) txt).map argVector)
        (fun _ _ => False) fun site _ => site = .command ∨ isargs = true ∧ site = .kernelArguments := by
  refine ⟨fun seps calls enough => ?_,fun outer inner calls enough each => ?_,
    fun cmdtable isargs calls writes enough each => ?_⟩
  · apply wp_imp (tokens_spec text enough)
    rintro found t ⟨⟨_,collected⟩,_⟩
    exact collected.tokens.imp fun _ _ token => token.1.1
  · exact nestedTokens_spec text enough each
  · exact menuExecute_spec writes isargs text enough each

/-- `"s; p x"` -/
theorem strtok_r_splits_line :
    ((nestedTokens semicolon blanks 3 0 : Exec CharBuf Empty Stop _)
      ⟨fun i => [115,59,32,112,32,120].getD i 0,0,6⟩).1 = .ok [[[115]],[[112],[120]]] := by
  have splits := strtok_r_splits (fun i => [115,59,32,112,32,120].getD i 0) 0 [115,59,32,112,32,120]
    (by decide)
  obtain ⟨groups,t,ran,same⟩ := wp_returns (splits.2.1 semicolon blanks 3 (by decide) (by decide))
  have pieces : groups = [[[115]],[[112],[120]]] := same.trans (by decide)
  exact (congrArg Prod.fst ran).trans (congrArg Outcome.ok pieces)

end Os161
