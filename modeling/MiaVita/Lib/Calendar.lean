import Mathlib.Algebra.BigOperators.Intervals
import Mathlib.Tactic.IntervalCases

/-!
# The Gregorian calendar

Months are counted through: month `12 * y + m` is the one that comes `m` months after January of the
year `y`, whether or not `m` is between 0 and 11. So a month that is out of range needs no rule of
its own. `firstDay` is the day that a month begins with, in closed form, and `firstDay_succ` says
that it grows by the length of the month. The days between two months are then the sum of the
lengths of those in between (`sum_monthLength`).

The calendar is proleptic: the rule for leap years holds for all years.
-/

namespace Calendar

/-- A leap year. -/
def IsLeap (y : ℤ) : Prop := y % 4 = 0 ∧ (y % 100 ≠ 0 ∨ y % 400 = 0)

instance (y : ℤ) : Decidable (IsLeap y) := inferInstanceAs (Decidable (_ ∧ _))

/-- The length of February. -/
def februaryLength (y : ℤ) : ℤ := if IsLeap y then 29 else 28

/-- The length of a month of the year `y`, from January, which is month 0, to December. -/
def lengthInYear (y m : ℤ) : ℤ :=
  if m = 1 then februaryLength y else if m = 3 ∨ m = 5 ∨ m = 8 ∨ m = 10 then 30 else 31

/-- The length of a month that is counted through. -/
def monthLength (month : ℤ) : ℤ := lengthInYear (month / 12) (month % 12)

/-- The days from the first of January of the year 1 to that of the year `y`. -/
def daysBeforeYear (y : ℤ) : ℤ := 365 * (y - 1) + (y - 1) / 4 - (y - 1) / 100 + (y - 1) / 400

/-- The days of a year before one of its months. -/
def daysBeforeMonth (y m : ℤ) : ℤ :=
  if m = 0 then 0
  else if m = 1 then 31
  else 31 + februaryLength y +
    if m = 2 then 0
    else if m = 3 then 31
    else if m = 4 then 61
    else if m = 5 then 92
    else if m = 6 then 122
    else if m = 7 then 153
    else if m = 8 then 184
    else if m = 9 then 214
    else if m = 10 then 245
    else 275

/-- The day that a month begins with. -/
def firstDay (month : ℤ) : ℤ :=
  daysBeforeYear (month / 12) + daysBeforeMonth (month / 12) (month % 12)

private theorem februaryLength_range (y : ℤ) : 28 ≤ februaryLength y ∧ februaryLength y ≤ 29 := by
  rw [februaryLength]
  split_ifs <;> decide

/-- A month has 28 to 31 days. -/
theorem lengthInYear_range (y m : ℤ) : 28 ≤ lengthInYear y m ∧ lengthInYear y m ≤ 31 := by
  rw [lengthInYear]
  have hfebruary := februaryLength_range y
  split_ifs <;> omega

/-- A year is as long as its months. -/
theorem daysBeforeYear_succ (y : ℤ) :
    daysBeforeYear (y + 1) = daysBeforeYear y + 337 + februaryLength y := by
  rw [daysBeforeYear, daysBeforeYear, februaryLength]
  simp only [IsLeap]
  split_ifs <;> omega

private theorem daysBeforeMonth_succ (y : ℤ) {m : ℤ} (h0 : 0 ≤ m) (h11 : m < 11) :
    daysBeforeMonth y (m + 1) = daysBeforeMonth y m + lengthInYear y m := by
  interval_cases m <;> simp [daysBeforeMonth, lengthInYear] <;> omega

/-- **The next month** begins where this one ends. -/
theorem firstDay_succ (month : ℤ) : firstDay (month + 1) = firstDay month + monthLength month := by
  have h0 : 0 ≤ month % 12 := Int.emod_nonneg month (by decide)
  have h12 : month % 12 < 12 := Int.emod_lt_of_pos month (by decide)
  rw [firstDay, firstDay, monthLength]
  by_cases h11 : month % 12 < 11
  · rw [show (month + 1) / 12 = month / 12 by omega,
      show (month + 1) % 12 = month % 12 + 1 by omega, daysBeforeMonth_succ _ h0 h11, add_assoc]
  · -- December, after which comes the next year
    rw [show (month + 1) / 12 = month / 12 + 1 by omega, show (month + 1) % 12 = 0 by omega,
      show month % 12 = 11 by omega, daysBeforeYear_succ]
    simp [daysBeforeMonth, lengthInYear]
    omega

/-- **The days between two months.** -/
theorem sum_monthLength (month : ℤ) (n : ℕ) :
    ∑ k ∈ Finset.range n, monthLength (month + k) = firstDay (month + n) - firstDay month := by
  induction n with
  | zero => simp
  | succ n ih =>
    rw [Finset.sum_range_succ, ih, Nat.cast_succ, ← add_assoc, firstDay_succ]
    omega

end Calendar
