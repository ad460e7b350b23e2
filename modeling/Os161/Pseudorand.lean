import Mathlib.Data.Nat.ModEq
import Mathlib.Tactic.Ring
import Os161.Kernel

/-! `dev/generic/pseudorand.c`: the generator with multiplier 16807 and modulus `2^31 - 1`. Its
products stay in the range of an `int`, since the seed is taken apart with Schrage's method. -/
namespace Os161

/-! Products modulo `a * q + r`, from the quotient and the remainder of one factor by `q` -/

section Schrage
variable {a q r s : Nat}

theorem schrage_eq (a q r s : Nat) : (a : Int) * (s % q : Nat) - r * (s / q : Nat) =
    a * s - (a * q + r : Nat) * (s / q : Nat) := by
  have split : (s : Int) = q * (s / q : Nat) + (s % q : Nat) := mod_cast (Nat.div_add_mod s q).symm
  calc (a : Int) * (s % q : Nat) - r * (s / q : Nat)
      = a * (q * (s / q : Nat) + (s % q : Nat)) - (a * q + r : Nat) * (s / q : Nat) := by
        push_cast
        ring
    _ = a * s - (a * q + r : Nat) * (s / q : Nat) := by rw [← split]

theorem mul_mod_lt_modulus (some_ : 0 < a) (pos : 0 < q) : a * (s % q) < a * q + r :=
  Nat.lt_of_lt_of_le (Nat.mul_lt_mul_of_pos_left (Nat.mod_lt s pos) some_) (Nat.le_add_right _ _)

theorem mul_div_lt_modulus (le : r ≤ q) (small : s < a * q + r) : r * (s / q) < a * q + r :=
  Nat.lt_of_le_of_lt ((Nat.mul_le_mul_right _ le).trans (Nat.mul_div_le s q)) small

theorem mul_mod_modulus_ne_zero (coprime : Nat.Coprime a (a * q + r)) (some_ : 0 < s)
    (small : s < a * q + r) : a * s % (a * q + r) ≠ 0 := by
  intro zero
  have divides : a * q + r ∣ s := coprime.symm.dvd_of_dvd_mul_left (Nat.dvd_of_mod_eq_zero zero)
  exact absurd (Nat.le_of_dvd some_ divides) (Nat.not_le.mpr small)

theorem schrage_mod (coprime : Nat.Coprime a (a * q + r)) (pos : 0 < q) (le : r ≤ q)
    (some_ : 0 < s) (small : s < a * q + r) {tmp : Int}
    (difference : tmp = (a : Int) * (s % q : Nat) - r * (s / q : Nat)) :
    (if tmp ≤ 0 then tmp + (a * q + r : Nat) else tmp) = (a * s % (a * q + r) : Nat) := by
  have some' : 0 < a := by
    by_contra none
    rw [Nat.eq_zero_of_not_pos none,Nat.zero_mul,Nat.zero_add] at small
    rw [Nat.eq_zero_of_not_pos none,Nat.zero_mul,Nat.zero_add,Nat.coprime_zero_left] at coprime
    omega
  have nonzero := mul_mod_modulus_ne_zero coprime some_ small
  have low : (a : Int) * (s % q : Nat) < (a * q + r : Nat) := mod_cast mul_mod_lt_modulus some' pos
  have high : (r : Int) * (s / q : Nat) < (a * q + r : Nat) := mod_cast mul_div_lt_modulus le small
  have lowNonneg : 0 ≤ (a : Int) * (s % q : Nat) := mod_cast Nat.zero_le _
  have highNonneg : 0 ≤ (r : Int) * (s / q : Nat) := mod_cast Nat.zero_le _
  have residue : tmp % (a * q + r : Nat) = (a * s % (a * q + r) : Nat) := by
    rw [difference,schrage_eq,Int.sub_mul_emod_self_left,Int.natCast_emod,Nat.cast_mul]
  generalize a * q + r = m at *
  split
  case isTrue negative =>
    have other : tmp ≠ 0 := by
      rintro rfl
      rw [Int.zero_emod] at residue
      exact nonzero (mod_cast residue.symm)
    rw [← residue,← Int.add_emod_right,Int.emod_eq_of_lt (by omega) (by omega)]
  case isFalse positive => rw [← residue,Int.emod_eq_of_lt (by omega) (by omega)]

end Schrage

/-! The generator -/

namespace Pseudorand

def multiplier : Int := 16807
def modulus : Int := 0x7fffffff
def k1 : Nat := 127773
def k2 : Int := 2836

structure PseudorandSoftc where
  psSeed : Nat
  deriving DecidableEq, Repr

/-- C leaves a signed result that does not fit undefined. -/
inductive IntOverflow where
  | intOverflow
  deriving DecidableEq, Repr

abbrev Rand := Exec PseudorandSoftc Empty IntOverflow

def int (x : Int) : Rand Int := do
  assert (-2^31 ≤ x ∧ x < 2^31) .intOverflow
  return x

def pseudorandRandom : Rand Nat := do
  let ps ← read
  let hi := i32 (ps.psSeed / k1 : Nat)
  let lo := i32 (ps.psSeed % k1 : Nat)
  let tmp ← int ((← int (multiplier * lo)) - (← int (k2 * hi)))
  let tmp ← if tmp ≤ 0 then int (tmp + modulus) else pure tmp
  put { ps with psSeed := u32 tmp }
  return u32 ((u32 tmp : Int) - 1)

def pseudorandRandmax : Nat := u32 (modulus - 2)

/-- `allocated` tells whether `kmalloc` succeeds. -/
def pseudoattachPseudorand (allocated : Bool) (_unit : Int) : Option PseudorandSoftc :=
  if allocated then some ⟨305824⟩ else none

def pseudorandRun (n : Nat) : Rand (List Nat) :=
  loop (fun _ values => do return (← pseudorandRandom) :: values) n 0 []

theorem wp_int {x : Int} {s : PseudorandSoftc} {ok : Int → PseudorandSoftc → Prop}
    {err : Empty → PseudorandSoftc → Prop} {halt : IntOverflow → PseudorandSoftc → Prop}
    (low : -2^31 ≤ x) (high : x < 2^31) : (int x).wp s ok err halt ↔ ok x s := by
  simp only [int,wp_bind,wp_assert,low,high,and_self,decide_true,if_true,wp_pure]

def Seed (s : Nat) : Prop := 1 ≤ s ∧ s ≤ 2^31 - 2

section Step
variable {s : Nat} (seed : Seed s)
include seed

theorem seed_products : 16807 * (s % k1) < 2^31 - 1 ∧ 2836 * (s / k1) < 2^31 - 1 :=
  ⟨mul_mod_lt_modulus (a := 16807) (q := k1) (r := 2836) (by decide) (by decide),
    mul_div_lt_modulus (a := 16807) (q := k1) (r := 2836) (by decide) (Nat.lt_succ_of_le seed.2)⟩

theorem seed_next : Seed (16807 * s % (2^31 - 1)) := by
  have nonzero : 16807 * s % (2^31 - 1) ≠ 0 :=
    mul_mod_modulus_ne_zero (a := 16807) (q := k1) (r := 2836) (by decide) seed.1
      (Nat.lt_succ_of_le seed.2)
  have below : 16807 * s % (2^31 - 1) < 2^31 - 1 := Nat.mod_lt _ (by decide)
  exact ⟨Nat.one_le_iff_ne_zero.mpr nonzero,Nat.le_of_lt_succ below⟩

theorem seed_difference {tmp : Int} (difference : tmp = multiplier * (s % k1 : Nat) - k2 * (s / k1 : Nat)) :
    (if tmp ≤ 0 then tmp + modulus else tmp) = (16807 * s % (2^31 - 1) : Nat) := by
  have modulus_eq : ((16807 * k1 + 2836 : Nat) : Int) = modulus := by decide
  have next := schrage_mod (a := 16807) (q := k1) (r := 2836) (by decide) (by decide) (by decide)
    seed.1 (Nat.lt_succ_of_le seed.2) difference
  rwa [modulus_eq] at next

theorem pseudorandRandom_spec :
    pseudorandRandom.wp ⟨s⟩ (fun value ps => ps.psSeed = 16807 * s % (2^31 - 1) ∧
      value + 1 = ps.psSeed) never never := by
  obtain ⟨low,high⟩ := seed_products seed
  have next := seed_difference seed rfl
  obtain ⟨some_,small⟩ := seed_next seed
  have lo : i32 (s % k1 : Nat) = (s % k1 : Nat) := i32_of_bounds (by omega) (by omega)
  have hi : i32 (s / k1 : Nat) = (s / k1 : Nat) := i32_of_bounds (by omega) (by omega)
  simp only [pseudorandRandom,wp_bind,wp_read,lo,hi]
  generalize 16807 * s % (2^31 - 1) = seed' at next some_ small
  generalize s % k1 = x at low next
  generalize s / k1 = y at high next
  rw [wp_int (by unfold multiplier; omega) (by unfold multiplier; omega),
    wp_int (by unfold k2; omega) (by unfold k2; omega),
    wp_int (by unfold multiplier k2; omega) (by unfold multiplier k2; omega)]
  generalize multiplier * x - k2 * y = tmp at next
  have word : u32 seed' = seed' := u32_natCast (by omega)
  have value : u32 ((seed' : Int) - 1) + 1 = seed' := by
    rw [u32_of_bounds (by omega) (by omega)]
    omega
  rw [wp_ite]
  refine ⟨fun negative => ?_,fun positive => ?_⟩
  · rw [if_pos negative] at next
    rw [next,wp_bind,wp_int (by omega) (by omega),wp_bind,wp_put,wp_pure,word]
    exact ⟨rfl,value⟩
  · rw [if_neg positive] at next
    rw [wp_bind,wp_pure,next,wp_bind,wp_put,wp_pure,word]
    exact ⟨rfl,value⟩

end Step

theorem le_randmax {value s : Nat} (seed : Seed s) (drawn : value + 1 = s) :
    value ≤ pseudorandRandmax := by
  have randmax : pseudorandRandmax = 2^31 - 3 := u32_of_bounds (by decide) (by decide)
  rw [randmax]
  have := seed.2
  omega

theorem pseudorandRun_spec (n : Nat) {s : Nat} (seed : Seed s) :
    (pseudorandRun n).wp ⟨s⟩ (fun values ps => ps.psSeed = 16807^n * s % (2^31 - 1) ∧
      Seed ps.psSeed ∧ ∀ value ∈ values, value ≤ pseudorandRandmax) never never := by
  refine wp_loop_zero (fun i values (ps : PseudorandSoftc) => ps.psSeed = 16807^i * s % (2^31 - 1) ∧
    Seed ps.psSeed ∧ ∀ value ∈ values, value ≤ pseudorandRandmax) n [] ?_ ?_
  · have below : s < 2^31 - 1 := Nat.lt_succ_of_le seed.2
    refine ⟨?_,seed,fun value member => absurd member List.not_mem_nil⟩
    rw [Nat.pow_zero,Nat.one_mul,Nat.mod_eq_of_lt below]
  · rintro i values ⟨t⟩ _ ⟨run,current,bounded⟩
    rw [wp_bind]
    apply wp_imp (pseudorandRandom_spec current)
    rintro value ⟨u⟩ ⟨step,drawn⟩
    have new : Seed u := by
      rw [show u = _ from step]
      exact seed_next current
    refine ⟨?_,new,fun other member => ?_⟩
    · rw [step,run,Nat.mul_mod_mod,← Nat.mul_assoc,← Nat.pow_succ']
    · rcases List.mem_cons.mp member with rfl | member
      · exact le_randmax new drawn
      · exact bounded other member

/-- A call multiplies the seed by 16807 modulo `2^31 - 1` without an overflow, from every seed but 0
and the modulus, which a run from the initial seed never comes to. -/
theorem pseudorand_random_exact :
    (∀ s, 1 ≤ s → s ≤ 2^31 - 2 → pseudorandRandom.wp ⟨s⟩
      (fun value ps => ps.psSeed = 16807 * s % (2^31 - 1) ∧ 1 ≤ ps.psSeed ∧ ps.psSeed ≤ 2^31 - 2 ∧
        value ≤ pseudorandRandmax) (fun _ _ => False) fun _ _ => False) ∧
    ∀ allocated unit ps, pseudoattachPseudorand allocated unit = some ps →
      ∀ n, (pseudorandRun n).wp ps
        (fun values t => t.psSeed = 16807^n * ps.psSeed % (2^31 - 1) ∧ t.psSeed ≠ 0 ∧
          t.psSeed ≠ 2^31 - 1 ∧ ∀ value ∈ values, value ≤ pseudorandRandmax)
        (fun _ _ => False) fun _ _ => False := by
  refine ⟨fun s some_ small => ?_,fun allocated unit ps attached n => ?_⟩
  · have seed : Seed s := ⟨some_,small⟩
    apply wp_imp (pseudorandRandom_spec seed)
    rintro value ⟨t⟩ ⟨rfl,drawn⟩
    have new := seed_next seed
    exact ⟨rfl,new.1,new.2,le_randmax new drawn⟩
  · cases allocated with
    | false => cases attached
    | true =>
      obtain rfl : ⟨305824⟩ = ps := Option.some.inj attached
      apply wp_imp (pseudorandRun_spec n (s := 305824) ⟨by decide,by decide⟩)
      rintro values t ⟨run,⟨some_,small⟩,bounded⟩
      exact ⟨run,by omega,by omega,bounded⟩

theorem pseudorand_random_exact_attached :
    (pseudorandRun 2).wp ⟨305824⟩ (fun _ t => t.psSeed = 16807^2 * 305824 % (2^31 - 1))
      (fun _ _ => False) fun _ _ => False :=
  wp_imp (pseudorand_random_exact.2 true 0 ⟨305824⟩ rfl 2) fun _ _ run => run.1

end Pseudorand
end Os161
