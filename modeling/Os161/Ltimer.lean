import Mathlib.Order.Monotone.Basic
import Os161.Kernel

/-! The time of day: `ltimer_gettime` of `dev/lamebus/ltimer.c`, which reads the seconds on either
side of the nanoseconds, and `getinterval` of `main/menu.c`. -/
namespace Os161

/-- The clock of the timer card. `time i` is what it shows, in nanoseconds, at the `i`-th read of
one of its registers. -/
structure Ltimer where
  time : Nat → Nat
  steady : Monotone time
  reads : Nat

namespace Ltimer

inductive Reg where
  | sec | nsec
  deriving DecidableEq, Repr

abbrev Timed := Exec Ltimer Empty Empty

def second : Nat := 1000000000

def busReadRegister (reg : Reg) : Timed Nat := do
  let lt ← read
  put { lt with reads := lt.reads + 1 }
  let now := lt.time lt.reads
  match reg with
  | .sec => return now / second % 2^32
  | .nsec => return now % second

/-- The results are `*secs`, a `time_t`, and `*nsecs`. -/
def ltimerGettime : Timed (Int × Nat) := do
  let secs1 ← busReadRegister .sec
  let nsecs ← busReadRegister .nsec
  let secs2 ← busReadRegister .sec
  if nsecs < 5000000 then return (i32 secs2,nsecs) else return (i32 secs1,nsecs)

/-- The results are `*rs` and `*rns`. -/
def getinterval (s1 : Int) (ns1 : Nat) (s2 : Int) (ns2 : Nat) : Int × Nat :=
  if ns2 < ns1 then (i32 (i32 (s2 - 1) - s1),u32 ((u32 (ns2 + second) : Int) - ns1))
  else (i32 (s2 - s1),u32 ((ns2 : Int) - ns1))

/-- What `cmd_dispatch` measures: two results of `gettime`, with `between` reads by others. -/
def operationTook (between : Nat) : Timed (Int × Nat) := do
  let before ← ltimerGettime
  modify fun lt => { lt with reads := lt.reads + between }
  let after ← ltimerGettime
  return getinterval before.1 before.2 after.1 after.2

def parts (t : Nat) : Int × Nat := (((t / second : Nat) : Int),t % second)

theorem wp_gettime {lt : Ltimer} {ok : Int × Nat → Ltimer → Prop} {err halt : Empty → Ltimer → Prop} :
    ltimerGettime.wp lt ok err halt ↔
      ok (i32 ((if lt.time (lt.reads + 1) % second < 5000000 then lt.time (lt.reads + 2) / second
        else lt.time lt.reads / second) % 2^32 : Nat),lt.time (lt.reads + 1) % second)
        { lt with reads := lt.reads + 3 } := by
  simp only [ltimerGettime,busReadRegister,wp_bind,wp_read,wp_put,wp_pure]
  split
  · rfl
  · rfl

theorem seconds_used {t1 t2 t3 : Nat} (first : t1 ≤ t2) (last : t2 ≤ t3) (quick : t3 - t1 < 5000000) :
    (if t2 % second < 5000000 then t3 / second else t1 / second) = t2 / second := by
  unfold second
  split
  · omega
  · omega

theorem ltimerGettime_spec {lt : Ltimer} (quick : lt.time (lt.reads + 2) - lt.time lt.reads < 5000000)
    (early : lt.time (lt.reads + 1) / second < 2^31) :
    ltimerGettime.wp lt
      (fun result t => result = parts (lt.time (lt.reads + 1)) ∧ t = { lt with reads := lt.reads + 3 })
      never never := by
  have low : 0 ≤ ((lt.time (lt.reads + 1) / second : Nat) : Int) := Int.natCast_nonneg _
  rw [wp_gettime,seconds_used (lt.steady (by omega)) (lt.steady (by omega)) quick,
    Nat.mod_eq_of_lt (by omega),i32_of_bounds (by omega) (by omega)]
  exact ⟨rfl,rfl⟩

theorem getinterval_eq {t u : Nat} (le : t ≤ u) (early : u / second < 2^31) :
    getinterval (parts t).1 (parts t).2 (parts u).1 (parts u).2 = parts (u - t) := by
  unfold second at early
  simp only [parts]
  rw [getinterval,second]
  by_cases borrow : u % 1000000000 < t % 1000000000
  · have secs : i32 ((u / 1000000000 : Nat) - 1) = (u / 1000000000 : Nat) - 1 :=
      i32_of_bounds (by omega) (by omega)
    have nsecs : u32 ((u % 1000000000 : Nat) + (1000000000 : Nat)) = u % 1000000000 + 1000000000 := by
      rw [u32_of_bounds (by omega) (by omega)]
      omega
    rw [if_pos borrow,secs,nsecs,i32_of_bounds (by omega) (by omega),u32_of_bounds (by omega) (by omega)]
    refine Prod.ext ?_ ?_
    · simp only
      omega
    · simp only
      omega
  · rw [if_neg borrow,i32_of_bounds (by omega) (by omega),u32_of_bounds (by omega) (by omega)]
    refine Prod.ext ?_ ?_
    · simp only
      omega
    · simp only
      omega

/-- Before the seconds come to `2^31`, which a `time_t` does not hold, a time that is read within
5 ms is exact, and so is the interval between two of them. -/
theorem clock_reads_exact (lt : Ltimer)
    (quick : lt.time (lt.reads + 2) - lt.time lt.reads < 5000000)
    (early : lt.time (lt.reads + 1) / second < 2^31) :
    ltimerGettime.wp lt (fun result _ => result = parts (lt.time (lt.reads + 1)))
      (fun _ _ => False) (fun _ _ => False) ∧
    ∀ between, lt.time (lt.reads + 3 + between + 2) - lt.time (lt.reads + 3 + between) < 5000000 →
      lt.time (lt.reads + 3 + between + 1) / second < 2^31 →
      (operationTook between).wp lt
        (fun result _ => result = parts (lt.time (lt.reads + 3 + between + 1) - lt.time (lt.reads + 1)))
        (fun _ _ => False) fun _ _ => False := by
  refine ⟨wp_imp (ltimerGettime_spec quick early) fun _ _ h => h.1,fun between quick' early' => ?_⟩
  rw [operationTook,wp_bind]
  apply wp_imp (ltimerGettime_spec quick early)
  rintro before _ ⟨rfl,rfl⟩
  rw [wp_bind,wp_modify,wp_bind]
  apply wp_imp (ltimerGettime_spec quick' early')
  rintro after t ⟨rfl,-⟩
  have le : lt.time (lt.reads + 1) ≤ lt.time (lt.reads + 3 + between + 1) := lt.steady (by omega)
  exact getinterval_eq le early'

/-- Two reads around the turn of a second. -/
theorem clock_reads_exact_turn :
    ltimerGettime.wp ⟨fun i => 999999999 + i,fun _ _ le => Nat.add_le_add_left le _,0⟩
      (fun result _ => result = (1,0)) (fun _ _ => False) fun _ _ => False :=
  (clock_reads_exact ⟨fun i => 999999999 + i,fun _ _ le => Nat.add_le_add_left le _,0⟩
    (by decide) (by decide)).1

/-- In the year 2038 the seconds no longer fit. -/
theorem clock_reads_late : ¬ ∀ lt : Ltimer, lt.time (lt.reads + 2) - lt.time lt.reads < 5000000 →
    ltimerGettime.wp lt (fun result _ => result = parts (lt.time (lt.reads + 1)))
      (fun _ _ => False) fun _ _ => False := by
  intro exact
  have late := exact ⟨fun _ => 2^31 * second,fun _ _ _ => Nat.le_refl _,0⟩ (by decide)
  rw [wp_gettime,seconds_used (Nat.le_refl _) (Nat.le_refl _) (by decide)] at late
  have secs : i32 2147483648 = 2147483648 := congrArg Prod.fst late
  rw [i32_of_wrap (by decide) (by decide)] at secs
  exact absurd secs (by decide)

end Ltimer
end Os161
