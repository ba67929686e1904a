import Mathlib.Data.List.GetD
import Mathlib.Tactic.IntervalCases
import Mathlib.Logic.Function.Iterate
import Mathlib.Order.Basic

/-!
# The Gregorian calendar

Dates of the proleptic Gregorian calendar from year 1 on, the step to the next
day, and the ordinal of a date, which counts from 1 January 1. The ordinal grows
by one with each step and tells valid dates apart, so it says how many steps lead
from one date to another.
-/

namespace Ydb.Lib

/-- Every fourth year, of the centuries only every fourth. -/
def IsLeapYear (year : Nat) : Prop := 4 ∣ year ∧ (100 ∣ year → 400 ∣ year)

instance (year : Nat) : Decidable (IsLeapYear year) := inferInstanceAs (Decidable (_ ∧ _))

/-- A date of the calendar, valid or not. Months and days count from one. -/
structure CalendarDate where
  year : Nat
  month : Nat
  day : Nat
deriving DecidableEq, Repr

/-- The days of a month. -/
def daysInMonth (year month : Nat) : Nat :=
  if month = 2 then if IsLeapYear year then 29 else 28
  else if month = 4 ∨ month = 6 ∨ month = 9 ∨ month = 11 then 30 else 31

/-- The number of leap years up to a year. -/
def leapYears (year : Nat) : Nat := year / 4 - year / 100 + year / 400

theorem leapYears_succ (year : Nat) :
    leapYears (year + 1) = leapYears year + if IsLeapYear (year + 1) then 1 else 0 := by
  have few : year / 100 ≤ year / 4 := Nat.div_le_div_left (by decide) (by decide)
  have centuries : 100 ∣ year + 1 → 4 ∣ year + 1 := Nat.dvd_trans (by decide)
  have cycles : 400 ∣ year + 1 → 100 ∣ year + 1 := Nat.dvd_trans (by decide)
  unfold leapYears IsLeapYear
  rw [Nat.succ_div, Nat.succ_div, Nat.succ_div]
  by_cases fourth : 4 ∣ year + 1
  · by_cases century : 100 ∣ year + 1
    · by_cases cycle : 400 ∣ year + 1
      · simp only [fourth, century, cycle, if_true, and_self, imp_self]
        omega
      · simp only [fourth, century, cycle, if_true, if_false, true_and, imp_false, not_true_eq_false]
        omega
    · have outside : ¬ 400 ∣ year + 1 := fun cycle => century (cycles cycle)
      simp only [fourth, century, outside, if_true, if_false, true_and, imp_self]
      omega
  · have ordinary : ¬ 100 ∣ year + 1 := fun century => fourth (centuries century)
    have outside : ¬ 400 ∣ year + 1 := fun cycle => ordinary (cycles cycle)
    simp only [fourth, ordinary, outside, if_false, false_and]
    omega

namespace CalendarDate

/-- A date of the calendar. -/
structure Valid (d : CalendarDate) : Prop where
  year_pos : 1 ≤ d.year
  month_pos : 1 ≤ d.month
  month_le : d.month ≤ 12
  day_pos : 1 ≤ d.day
  day_le : d.day ≤ daysInMonth d.year d.month

/-- The day after. -/
def next (d : CalendarDate) : CalendarDate :=
  if d.day < daysInMonth d.year d.month then { d with day := d.day + 1 }
  else if d.month < 12 then { year := d.year, month := d.month + 1, day := 1 }
  else { year := d.year + 1, month := 1, day := 1 }

/-- The days of the months before. -/
def daysBeforeMonth (year : Nat) : Nat → Nat
  | 0 => 0
  | 1 => 0
  | month + 1 => daysBeforeMonth year month + daysInMonth year month

/-- The number of the day, 1 for the first of January of year 1. -/
def ordinal (d : CalendarDate) : Nat :=
  365 * (d.year - 1) + leapYears (d.year - 1) + daysBeforeMonth d.year d.month + d.day

/-- The day of the week, 1 for Sunday. The first of January of year 1 is a Monday. -/
def weekday (d : CalendarDate) : Nat := d.ordinal % 7 + 1

variable {d e : CalendarDate}

theorem daysBeforeMonth_succ (year : Nat) {month : Nat} (some : 1 ≤ month) :
    daysBeforeMonth year (month + 1) = daysBeforeMonth year month + daysInMonth year month := by
  obtain ⟨m, rfl⟩ := Nat.exists_eq_add_of_le' some
  rfl

/-- The months of a year by number: the days before each in a common year, one more
behind a leap day. -/
theorem daysBeforeMonth_eq (year : Nat) {month : Nat} (some : 1 ≤ month) (last : month ≤ 12) :
    daysBeforeMonth year month =
      [0, 31, 59, 90, 120, 151, 181, 212, 243, 273, 304, 334].getD (month - 1) 0 +
        if 2 < month ∧ IsLeapYear year then 1 else 0 := by
  by_cases leap : IsLeapYear year <;> interval_cases month <;>
    simp [daysBeforeMonth, daysInMonth, leap]

theorem daysInMonth_ge (year month : Nat) : 28 ≤ daysInMonth year month := by
  unfold daysInMonth
  split_ifs <;> decide

theorem valid_next (valid : d.Valid) : d.next.Valid := by
  have positive := valid.year_pos
  have first := valid.month_pos
  have last := valid.month_le
  unfold next
  split_ifs with inside early
  · exact ⟨positive, first, last, Nat.succ_pos _, inside⟩
  · have long := daysInMonth_ge d.year (d.month + 1)
    exact ⟨positive, Nat.succ_pos _, early, Nat.le_refl 1, (by decide : 1 ≤ 28).trans long⟩
  · have long := daysInMonth_ge (d.year + 1) 1
    have twelve : (1 : Nat) ≤ 12 := by decide
    exact ⟨Nat.succ_pos _, Nat.le_refl 1, twelve, Nat.le_refl 1, (by decide : 1 ≤ 28).trans long⟩

theorem ordinal_next (valid : d.Valid) : d.next.ordinal = d.ordinal + 1 := by
  have positive := valid.year_pos
  have first := valid.month_pos
  have last := valid.month_le
  have day := valid.day_le
  unfold next
  split_ifs with inside early
  · rfl
  · have whole : d.day = daysInMonth d.year d.month := by omega
    unfold ordinal
    dsimp only
    rw [daysBeforeMonth_succ d.year first, whole]
    omega
  · have december : d.month = 12 := by omega
    have whole : d.day = 31 := by
      have thirtyOne : daysInMonth d.year 12 = 31 := rfl
      rw [december, thirtyOne] at day inside
      omega
    obtain ⟨year, isYear⟩ := Nat.exists_eq_add_of_le' positive
    have before := daysBeforeMonth_eq d.year first last
    rw [december] at before
    unfold ordinal
    dsimp only
    rw [december, before, whole, Nat.add_sub_cancel, isYear, Nat.add_sub_cancel, leapYears_succ]
    simp [daysBeforeMonth]
    omega

/-! ## Dates in order -/

/-- Dates of one year are ordered by month and day. -/
theorem daysBeforeMonth_mono (year : Nat) {m n : Nat} (first : 1 ≤ m) (less : m < n) :
    daysBeforeMonth year m + daysInMonth year m ≤ daysBeforeMonth year n := by
  induction n with
  | zero => omega
  | succ n ih =>
    rw [daysBeforeMonth_succ year (by omega : 1 ≤ n)]
    rcases Nat.lt_or_eq_of_le (Nat.le_of_lt_succ less) with earlier | rfl
    · have step := ih earlier
      omega
    · rfl

/-- The days of a year. -/
theorem Valid.day_of_year (valid : d.Valid) :
    daysBeforeMonth d.year d.month + d.day ≤ 365 + if IsLeapYear d.year then 1 else 0 := by
  have first := valid.month_pos
  have last := valid.month_le
  have day := valid.day_le
  have december : daysBeforeMonth d.year 13 = 365 + if IsLeapYear d.year then 1 else 0 := by
    rw [daysBeforeMonth_succ d.year (by decide : 1 ≤ 12), daysBeforeMonth_eq d.year (by decide) (by decide)]
    by_cases leap : IsLeapYear d.year <;> simp [leap, daysInMonth]
  have inside := daysBeforeMonth_mono d.year first (by omega : d.month < 13)
  omega

theorem ordinal_lt_of_year_lt (dValid : d.Valid) (eValid : e.Valid) (less : d.year < e.year) :
    d.ordinal < e.ordinal := by
  have positive := dValid.year_pos
  have days := dValid.day_of_year
  have day := eValid.day_pos
  obtain ⟨year, isYear⟩ := Nat.exists_eq_add_of_le' positive
  obtain ⟨gap, isGap⟩ := Nat.exists_eq_add_of_lt less
  have more : leapYears (year + 1) ≤ leapYears (e.year - 1) := by
    unfold leapYears
    omega
  have step := leapYears_succ year
  rw [isYear] at days
  unfold ordinal
  rw [isYear, Nat.add_sub_cancel]
  omega

theorem ordinal_lt_of_month_lt (dValid : d.Valid) (eValid : e.Valid) (same : d.year = e.year)
    (less : d.month < e.month) : d.ordinal < e.ordinal := by
  have inside := daysBeforeMonth_mono d.year dValid.month_pos less
  have last := dValid.day_le
  have day := eValid.day_pos
  unfold ordinal
  rw [← same]
  omega

/-- The ordinal tells valid dates apart. -/
theorem ordinal_injective (dValid : d.Valid) (eValid : e.Valid) (same : d.ordinal = e.ordinal) :
    d = e := by
  have years : d.year = e.year := by
    rcases lt_trichotomy d.year e.year with less | equal | more
    · exact absurd same (ordinal_lt_of_year_lt dValid eValid less).ne
    · exact equal
    · exact absurd same (ordinal_lt_of_year_lt eValid dValid more).ne'
  have months : d.month = e.month := by
    rcases lt_trichotomy d.month e.month with less | equal | more
    · exact absurd same (ordinal_lt_of_month_lt dValid eValid years less).ne
    · exact equal
    · exact absurd same (ordinal_lt_of_month_lt eValid dValid years.symm more).ne'
  have days : d.day = e.day := by
    unfold ordinal at same
    rw [years, months] at same
    omega
  cases d
  cases e
  simp_all

theorem valid_iterate_next (valid : d.Valid) (n : Nat) : (next^[n] d).Valid := by
  induction n with
  | zero => exact valid
  | succ n ih =>
    rw [Function.iterate_succ_apply']
    exact valid_next ih

theorem ordinal_iterate_next (valid : d.Valid) (n : Nat) : (next^[n] d).ordinal = d.ordinal + n := by
  induction n with
  | zero => rfl
  | succ n ih =>
    rw [Function.iterate_succ_apply', ordinal_next (valid_iterate_next valid n), ih]
    rfl

/-- A valid date is as many days behind another as their ordinals say. -/
theorem eq_iterate_next (dValid : d.Valid) (eValid : e.Valid) {n : Nat}
    (apart : e.ordinal = d.ordinal + n) : e = next^[n] d := by
  apply ordinal_injective eValid (valid_iterate_next dValid n)
  rw [apart, ordinal_iterate_next dValid]

end CalendarDate

end Ydb.Lib
