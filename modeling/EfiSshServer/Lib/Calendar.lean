import Mathlib.Data.Nat.Init
import Mathlib.Algebra.Order.Group.Nat

/-!
# Months of the Gregorian calendar

Months are numbered from January of year 0, so that month `m` belongs to year `m / 12`.
`daysBefore m` are the days from there to the first of month `m`.

A clock that gives every month 31 days is late by one day for each day that a month is
short of that: `daysBefore_eq_iff` says between which months it is right.
-/

namespace Calendar

def IsLeap (year : ℕ) : Prop := year % 4 = 0 ∧ (year % 100 ≠ 0 ∨ year % 400 = 0)

instance (year : ℕ) : Decidable (IsLeap year) :=
  inferInstanceAs (Decidable (_ ∧ _))

def monthLength (m : ℕ) : ℕ :=
  match m % 12 with
  | 1 => if IsLeap (m / 12) then 29 else 28
  | 3 | 5 | 8 | 10 => 30
  | _ => 31

def daysBefore : ℕ → ℕ
  | 0 => 0
  | m + 1 => daysBefore m + monthLength m

theorem daysBefore_succ (m : ℕ) : daysBefore (m + 1) = daysBefore m + monthLength m := rfl

variable {a b : ℕ}

theorem monthLength_le (m : ℕ) : monthLength m ≤ 31 := by
  unfold monthLength
  split
  · split <;> omega
  all_goals omega

theorem daysBefore_mono : Monotone daysBefore :=
  monotone_nat_of_le_succ fun _ => Nat.le_add_right _ _

/-- Against months of 31 days. -/
theorem daysBefore_le (h : a ≤ b) : daysBefore b ≤ daysBefore a + 31 * (b - a) := by
  induction b, h using Nat.le_induction with
  | base => omega
  | succ b hab ih =>
    have hmonth := monthLength_le b
    rw [daysBefore_succ]
    omega

/-- Months of 31 days count right when there is no shorter one between. -/
theorem daysBefore_eq_iff (h : a ≤ b) :
    daysBefore b = daysBefore a + 31 * (b - a) ↔ ∀ m, a ≤ m → m < b → monthLength m = 31 := by
  induction b, h using Nat.le_induction with
  | base =>
    refine ⟨fun _ m hlow hhigh => absurd hlow (Nat.not_le.mpr hhigh), fun _ => ?_⟩
    rw [Nat.sub_self]
    rfl
  | succ b hab ih =>
    have hmonth := monthLength_le b
    have hle := daysBefore_le hab
    rw [daysBefore_succ]
    constructor
    · intro heq m hlow hhigh
      have hb : daysBefore b = daysBefore a + 31 * (b - a) := by omega
      rcases Nat.lt_succ_iff_lt_or_eq.mp hhigh with hhigh | rfl
      · exact ih.mp hb m hlow hhigh
      · omega
    · intro hall
      have hb := ih.mpr fun m hlow hhigh => hall m hlow (Nat.lt_succ_of_lt hhigh)
      have hlast := hall b hab (Nat.lt_succ_self b)
      omega

/-- A day of a month lies before the first of every later month. -/
theorem day_lt_of_month_lt {day : ℕ} (hday : day ≤ monthLength a) (h : a < b) :
    daysBefore a + day ≤ daysBefore b :=
  (Nat.add_le_add_left hday _).trans (daysBefore_mono h)

end Calendar
