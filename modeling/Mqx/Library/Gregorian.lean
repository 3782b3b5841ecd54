import Mathlib.Algebra.BigOperators.Intervals
import Mathlib.Tactic

/-!
# The Gregorian calendar

Days are numbered from 1 January of the year 1, which was a Monday. The leap rule and the
lengths of the months are the only data; the number of a day, its place in the year and
its weekday are counted from them.
-/

namespace Gregorian

def IsLeap (y : ℕ) : Prop := y % 4 = 0 ∧ (y % 100 ≠ 0 ∨ y % 400 = 0)

instance (y : ℕ) : Decidable (IsLeap y) := inferInstanceAs (Decidable (_ ∧ _))

def yearLength (y : ℕ) : ℕ := if IsLeap y then 366 else 365

def monthLength (y m : ℕ) : ℕ :=
  match m with
  | 2 => if IsLeap y then 29 else 28
  | 4 | 6 | 9 | 11 => 30
  | _ => 31

/-- A date of the calendar, with its month and day in range. -/
structure Date where
  year : ℕ
  month : ℕ
  day : ℕ
  year_pos : 1 ≤ year
  month_pos : 1 ≤ month
  month_le : month ≤ 12
  day_pos : 1 ≤ day
  day_le : day ≤ monthLength year month

/-- The days from 1 January of the year 1 to 1 January of the year `y`. -/
def daysBeforeYear (y : ℕ) : ℕ := ∑ i ∈ Finset.Ico 1 y, yearLength i

/-- The days from 1 January of the year `y` to the first of its month `m`. -/
def daysBeforeMonth (y m : ℕ) : ℕ := ∑ i ∈ Finset.Ico 1 m, monthLength y i

/-- The place of a date in its year, 0 for 1 January. -/
def Date.yearDay (d : Date) : ℕ := daysBeforeMonth d.year d.month + (d.day - 1)

/-- The days from 1 January of the year 1 to the date. -/
def Date.dayNumber (d : Date) : ℕ := daysBeforeYear d.year + d.yearDay

/-- The day of the week, 0 for Sunday. -/
def Date.weekday (d : Date) : ℕ := (d.dayNumber + 1) % 7

theorem yearLength_le (y : ℕ) : yearLength y ≤ 366 := by
  unfold yearLength
  split_ifs <;> omega

theorem monthLength_le (y m : ℕ) : monthLength y m ≤ 31 := by
  unfold monthLength
  split
  · split_ifs <;> omega
  all_goals omega

theorem yearLength_eq (y : ℕ) :
    yearLength (y + 1) + y / 4 + (y + 1) / 100 + y / 400 =
      365 + (y + 1) / 4 + y / 100 + (y + 1) / 400 := by
  by_cases h : IsLeap (y + 1)
  · rw [yearLength, if_pos h]
    unfold IsLeap at h
    omega
  · rw [yearLength, if_neg h]
    unfold IsLeap at h
    omega

/-- The usual closed form of the sum over the years. -/
theorem daysBeforeYear_eq (y : ℕ) :
    daysBeforeYear (y + 1) + y / 100 = 365 * y + y / 4 + y / 400 := by
  induction y with
  | zero => rfl
  | succ y ih =>
    have hstep := yearLength_eq y
    have hsum : daysBeforeYear (y + 1 + 1) = daysBeforeYear (y + 1) + yearLength (y + 1) :=
      Finset.sum_Ico_succ_top (by omega) _
    omega

theorem daysBeforeMonth_succ {y m : ℕ} (hm : 1 ≤ m) :
    daysBeforeMonth y (m + 1) = daysBeforeMonth y m + monthLength y m :=
  Finset.sum_Ico_succ_top hm _

/-- The twelve months make up the year. -/
theorem daysBeforeMonth_thirteen (y : ℕ) : daysBeforeMonth y 13 = yearLength y := by
  unfold daysBeforeMonth yearLength monthLength
  by_cases h : IsLeap y
  · simp [Finset.sum_Ico_succ_top, h]
  · simp [Finset.sum_Ico_succ_top, h]

theorem daysBeforeMonth_le {y m : ℕ} (hm : m ≤ 13) : daysBeforeMonth y m ≤ yearLength y := by
  rw [← daysBeforeMonth_thirteen]
  exact Finset.sum_le_sum_of_subset (Finset.Ico_subset_Ico_right hm)

end Gregorian
