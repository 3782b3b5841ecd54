import Mathlib.Data.Rat.Floor
import Mathlib.Algebra.Order.Round
import Mathlib.Tactic.FieldSimp
import Mathlib.Tactic.Linarith
import Mathlib.Tactic.Ring

/-!
# Rounding of quotients

Quotients rounded to the nearest natural number, halves upwards, and how they are put together
from an integer division and its remainder.
-/

variable {n d h k : ℕ}

/-- `n / d` rounded to the nearest number, for an even `d`. -/
def roundDiv (d n : ℕ) : ℕ := (n + d / 2) / d

theorem round_div_eq (hd : 0 < d) (heven : d % 2 = 0) :
    round ((n : ℚ) / d) = (roundDiv d n : ℤ) := by
  have hhalf : ((d / 2 : ℕ) : ℚ) = d / 2 := by
    have hsplit : (d : ℚ) = 2 * (d / 2 : ℕ) := by
      exact_mod_cast (show d = 2 * (d / 2) by omega)
    rw [hsplit]
    ring
  have hadd : (n : ℚ) / d + 1 / 2 = ((n + d / 2 : ℕ) : ℚ) / d := by
    have hne : (d : ℚ) ≠ 0 := by exact_mod_cast hd.ne'
    rw [Nat.cast_add, hhalf]
    field_simp
  rw [round_eq, hadd, Rat.floor_natCast_div_natCast, roundDiv]
  norm_cast

/-- The rounded quotient is off by no more than a half. -/
theorem abs_roundDiv_sub_le (hd : 0 < d) (heven : d % 2 = 0) :
    |(roundDiv d n : ℚ) - n / d| ≤ 1 / 2 := by
  have hround := abs_sub_round ((n : ℚ) / d)
  rw [round_div_eq hd heven, abs_sub_comm] at hround
  exact_mod_cast hround

/-- Only the rounded quotient and its neighbours are that near. -/
theorem lt_abs_sub_of_add_roundDiv (hd : 0 < d) (heven : d % 2 = 0) (hk : 1 < k)
    (hsum : roundDiv d n = h + k) : 1 / 2 < |(h : ℚ) - n / d| := by
  have hnear := abs_le.mp (@abs_roundDiv_sub_le n d hd heven)
  rw [hsum] at hnear
  have hk' : (2 : ℚ) ≤ k := by exact_mod_cast hk
  push_cast at hnear
  rw [lt_abs]
  right
  linarith [hnear.1, hnear.2]

/-- A product is divided through a quotient and a remainder; only the second is rounded. -/
theorem div_mul_add_roundDiv_mod (d n h : ℕ) (hd : 0 < d) :
    n / d * h + roundDiv d (n % d * h) = roundDiv d (n * h) := by
  have hsplit : n * h = n % d * h + n / d * h * d := by
    conv_lhs => rw [← Nat.mod_add_div n d]
    ring
  rw [roundDiv, roundDiv, hsplit, Nat.add_right_comm, Nat.add_mul_div_right _ _ hd, Nat.add_comm]

/-- The rounded remainder stays below a whole unit unless it is half a step from it. -/
theorem roundDiv_mod_lt_iff (d n h : ℕ) (hd : 0 < d) (heven : d % 2 = 0) :
    roundDiv d (n % d * h) < h ↔ d / 2 < (d - n % d) * h := by
  have hr : n % d < d := Nat.mod_lt n hd
  have hsub : (d - n % d) * h + n % d * h = d * h := by
    rw [← Nat.add_mul]
    congr 1
    omega
  rw [roundDiv, Nat.div_lt_iff_lt_mul hd, Nat.mul_comm h d]
  omega

theorem roundDiv_mod_le (d n h : ℕ) (hd : 0 < d) (heven : d % 2 = 0) :
    roundDiv d (n % d * h) ≤ h := by
  have hr : n % d < d := Nat.mod_lt n hd
  have hmul : n % d * h ≤ d * h := Nat.mul_le_mul_right h hr.le
  rw [roundDiv]
  refine Nat.le_of_lt_succ ((Nat.div_lt_iff_lt_mul hd).mpr ?_)
  rw [Nat.succ_mul, Nat.mul_comm h d]
  omega
