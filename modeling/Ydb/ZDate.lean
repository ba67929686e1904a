import Ydb.Lib.Calendar

/-!
# The date of $ZDATE

`op_fnzdate` turns a day number, counted from 31 December 1840, into year, month,
day and day of the week. It adds to the day number a leap day for each century
passed that had none, so that from 1840 on every fourth year seems to be a leap
year and division finds the year. The 29th of February is told apart by one
comparison; all other days become days of common years.
-/

namespace Ydb

open Lib

def COMMON_LEAP_CYCLE : Nat := 4
def ADJUST_TO_1900 : Nat := COMMON_LEAP_CYCLE - 1
def BASE_YEAR : Nat := 1840
def MAX_DAYS_IN_MONTH : Nat := 31
def MIN_DAYS_IN_MONTH : Nat := 28
def DAYS_BEFORE_LEAP : Nat := MAX_DAYS_IN_MONTH + MIN_DAYS_IN_MONTH
def DAYS_MOST_YEARS : Nat := 365
def DAYS_IN_FOUR_YEARS : Nat := DAYS_MOST_YEARS * COMMON_LEAP_CYCLE + 1
/-- Right for a leap century but one too many for the others. -/
def DAYS_IN_CENTURY : Nat := DAYS_IN_FOUR_YEARS * 25
def DAYS_BASE_TO_1900 : Nat :=
  (1900 - BASE_YEAR) / COMMON_LEAP_CYCLE * DAYS_IN_FOUR_YEARS - 1 + DAYS_BEFORE_LEAP
def DAYS_IN_WEEK : Nat := 7
def MAX_DATE : Int := 364570088
def MIN_DATE : Int := -DAYS_MOST_YEARS

/-- The days of the months. -/
def montab : List Nat := [31, 28, 31, 30, 31, 30, 31, 31, 30, 31, 30, 31]

/-- A date with its day of the week, 1 for Sunday. -/
structure ZDate where
  date : CalendarDate
  dow : Nat
deriving DecidableEq, Repr

/-- Why a date is refused. -/
inductive ZDateError where
  | ZDATEBADDATE
deriving DecidableEq, Repr

/-- The leap day that the year `100 * n + 1600` did not have. -/
def missedLeapDay (n : Nat) : Nat := if 0 < n % COMMON_LEAP_CYCLE then 1 else 0

theorem missedLeapDay_le (n : Nat) : missedLeapDay n ≤ 1 := by
  unfold missedLeapDay
  split_ifs <;> decide

/-- The loop over the centuries from 1900 on: `cent` is the 28th of February of
the year `100 * n + 1600`. -/
def addLeapDays (cent day n : Nat) : Nat :=
  if cent < day then addLeapDays (cent + DAYS_IN_CENTURY) (day + missedLeapDay n) (n + 1) else day
termination_by day - cent
decreasing_by
  have added := missedLeapDay_le n
  simp only [DAYS_IN_CENTURY, DAYS_IN_FOUR_YEARS, DAYS_MOST_YEARS, COMMON_LEAP_CYCLE]
  omega

/-- The loop over the months: how many have passed, and the days of the next. -/
def findMonth : List Nat → Nat → Nat → Nat × Nat
  | [], i, day => (i, day)
  | length :: rest, i, day => if length ≤ day then findMonth rest (i + 1) (day - length) else (i, day)

/-- Year, month and day of a day number, counted from 1 January 1840, with a leap
day in every fourth year. -/
def splitDay (day : Nat) : CalendarDate :=
  let year := day / DAYS_IN_FOUR_YEARS
  let day := day - year * DAYS_IN_FOUR_YEARS
  let year := year * COMMON_LEAP_CYCLE + BASE_YEAR
  if DAYS_BEFORE_LEAP = day then ⟨year, 2, MIN_DAYS_IN_MONTH + 1⟩
  else
    let day := if DAYS_BEFORE_LEAP < day then day - 1 else day
    let month := day / DAYS_MOST_YEARS
    let year := year + month
    let day := day - month * DAYS_MOST_YEARS
    let (i, day) := findMonth montab 0 day
    ⟨year, i + 1, day + 1⟩

/-- The computation of the date. The day number is not negative once it counts
from `MIN_DATE`. -/
def op_fnzdate (day : Int) : Except ZDateError ZDate :=
  if MAX_DATE < day ∨ day < MIN_DATE then .error .ZDATEBADDATE
  else
    let day := (day + DAYS_MOST_YEARS).toNat
    let dow := (day + ADJUST_TO_1900) % DAYS_IN_WEEK + 1
    let day := addLeapDays DAYS_BASE_TO_1900 day ADJUST_TO_1900
    .ok ⟨splitDay day, dow⟩

/-! ## The years -/

/-- The leap days added for the first centuries from 1900 on. -/
def addedDays (centuries : Nat) : Nat := centuries - (centuries + 2) / 4

/-- How many centuries the loop passes: it stops before the end of February of the next, and it
passed the last one with a day behind the end of its February. -/
structure CenturiesPassed (day centuries : Nat) : Prop where
  stops : day + addedDays centuries ≤ 21973 + 36525 * centuries
  passed : 0 < centuries → 21973 + 36525 * (centuries - 1) < day + addedDays (centuries - 1)

theorem addLeapDays_from (k day : Nat)
    (passed : 0 < k → 21973 + 36525 * (k - 1) < day + addedDays (k - 1)) :
    ∃ centuries, addLeapDays (21973 + 36525 * k) (day + addedDays k) (3 + k) =
      day + addedDays centuries ∧ CenturiesPassed day centuries := by
  -- induction on the distance between the bound and the day
  induction distance : day + addedDays k - (21973 + 36525 * k) using Nat.strong_induction_on
    generalizing k with
  | _ n ih =>
    rw [addLeapDays]
    by_cases more : 21973 + 36525 * k < day + addedDays k
    · have century : 21973 + 36525 * k + DAYS_IN_CENTURY = 21973 + 36525 * (k + 1) := by
        simp only [DAYS_IN_CENTURY, DAYS_IN_FOUR_YEARS, DAYS_MOST_YEARS, COMMON_LEAP_CYCLE]
        omega
      have added : addedDays k + missedLeapDay (3 + k) = addedDays (k + 1) := by
        unfold addedDays missedLeapDay COMMON_LEAP_CYCLE
        split_ifs <;> omega
      have step := missedLeapDay_le (3 + k)
      rw [if_pos more, century, Nat.add_assoc day, added, Nat.add_assoc 3]
      apply ih _ _ (k + 1) _ rfl
      · omega
      · intro _
        rw [Nat.add_sub_cancel]
        exact more
    · rw [if_neg more]
      exact ⟨k, rfl, Nat.le_of_not_lt more, passed⟩

/-- The loop adds the days of the centuries it passes. -/
theorem addLeapDays_spec (day : Nat) :
    ∃ centuries, addLeapDays DAYS_BASE_TO_1900 day ADJUST_TO_1900 = day + addedDays centuries ∧
      CenturiesPassed day centuries := by
  apply addLeapDays_from 0 day
  intro none
  exact absurd none (Nat.lt_irrefl 0)

/-! ## The months -/

/-- What the loop over the months leaves. -/
structure MonthFound (rest : Nat) (found : Nat × Nat) : Prop where
  month : found.1 < 12
  day : found.2 < montab.getD found.1 0
  sum : (montab.take found.1).sum + found.2 = rest

/-- The month of a day. -/
theorem findMonth_spec {rest : Nat} (inside : rest < DAYS_MOST_YEARS) :
    MonthFound rest (findMonth montab 0 rest) := by
  have steps : ∀ (before after : List Nat), montab = before ++ after → ∀ day,
      before.sum + day = rest → MonthFound rest (findMonth after before.length day) := by
    intro before after
    induction after generalizing before with
    | nil =>
      intro whole day sum
      have year : before.sum = 365 := by
        rw [List.append_nil] at whole
        rw [← whole]
        rfl
      rw [DAYS_MOST_YEARS] at inside
      omega
    | cons length later ih =>
      intro whole day sum
      have count : before.length < 12 := by
        have lengths := congrArg List.length whole
        simp only [montab, List.length_append, List.length_cons, List.length_nil] at lengths
        omega
      rw [findMonth]
      by_cases more : length ≤ day
      · rw [if_pos more]
        have next := ih (before ++ [length]) (by simpa using whole) (day - length)
          (by rw [List.sum_append, List.sum_singleton]; omega)
        rw [List.length_append, List.length_singleton] at next
        exact next
      · rw [if_neg more]
        constructor
        · exact count
        · rw [whole, List.getD_append_right _ _ _ _ le_rfl, Nat.sub_self]
          exact Nat.lt_of_not_le more
        · rw [whole, List.take_left']
          · exact sum
          · rfl
  exact steps [] montab rfl rest (by simp)

/-! ## Dates with a leap day in every fourth year -/

/-- The last year whose leap day is passed by a day in a month of common length. -/
def passedYear (d : CalendarDate) : Nat := if d.month ≤ 2 then d.year - 1 else d.year

/-- A day of a common year: its number counts the years, the leap days passed and the days of the
year. -/
structure CommonDay (day : Nat) (d : CalendarDate) : Prop where
  year_ge : BASE_YEAR ≤ d.year
  month_pos : 1 ≤ d.month
  month_le : d.month ≤ 12
  day_pos : 1 ≤ d.day
  day_le : d.day ≤ montab.getD (d.month - 1) 0
  number : day + 1 = 365 * (d.year - BASE_YEAR) + (passedYear d - 1836) / 4 +
    (montab.take (d.month - 1)).sum + d.day

/-- A 29th of February. -/
structure LeapDay (day : Nat) (d : CalendarDate) : Prop where
  year_ge : BASE_YEAR ≤ d.year
  fourth : 4 ∣ d.year
  month : d.month = 2
  day_eq : d.day = 29
  number : day = 365 * (d.year - BASE_YEAR) + (d.year - BASE_YEAR) / 4 + 59

theorem montab_february {i : Nat} (early : i ≤ 1) : (montab.take i).sum + montab.getD i 0 ≤ 59 := by
  interval_cases i <;> decide

theorem montab_march {i : Nat} (late : 2 ≤ i) (inside : i < 12) : 59 ≤ (montab.take i).sum := by
  interval_cases i <;> decide

theorem montab_year {i : Nat} (inside : i < 12) : (montab.take i).sum + montab.getD i 0 ≤ 365 := by
  interval_cases i <;> decide

/-- The year, the month and the day. -/
theorem splitDay_spec (day : Nat) : LeapDay day (splitDay day) ∨ CommonDay day (splitDay day) := by
  have cycle : DAYS_IN_FOUR_YEARS = 1461 := rfl
  have february : DAYS_BEFORE_LEAP = 59 := rfl
  have year : DAYS_MOST_YEARS = 365 := rfl
  have base : BASE_YEAR = 1840 := rfl
  have four : COMMON_LEAP_CYCLE = 4 := rfl
  have whole := Nat.div_add_mod day 1461
  have inside := Nat.mod_lt day (by decide : 0 < 1461)
  generalize cycles : day / 1461 = q at whole
  generalize left : day % 1461 = r at whole inside
  have rest : day - q * 1461 = r := by omega
  unfold splitDay
  dsimp only
  rw [cycle, cycles, rest, february, four, base]
  by_cases leap : 59 = r
  · rw [if_pos leap]
    left
    constructor
    · exact Nat.le_add_left _ _
    · dsimp only
      omega
    · rfl
    · rfl
    · dsimp only
      rw [base]
      omega
  · rw [if_neg leap, year]
    right
    -- without the leap day the four years are of one length
    generalize common : (if 59 < r then r - 1 else r) = c
    have short : c < 1460 := by
      rw [← common]
      split_ifs <;> omega
    have split := Nat.div_add_mod c 365
    have days := Nat.mod_lt c (by decide : 0 < 365)
    generalize years : c / 365 = y at split
    have few : y < 4 := by omega
    have place : c - y * 365 = c % 365 := by omega
    rw [place]
    have found := findMonth_spec days
    generalize findMonth montab 0 (c % 365) = i at found
    obtain ⟨month, dayOfMonth⟩ := i
    have bound := found.month
    have last := found.day
    have sum := found.sum
    dsimp only at bound last sum ⊢
    constructor
    · exact (Nat.le_add_left _ _).trans (Nat.le_add_right _ _)
    · exact Nat.succ_pos _
    · exact bound
    · exact Nat.succ_pos _
    · exact last
    · dsimp only
      rw [base, Nat.add_sub_cancel, passedYear]
      dsimp only
      -- the leap day of the four years is passed from March of the first on
      by_cases early : month + 1 ≤ 2
      · have before := montab_february (by omega : month ≤ 1)
        rw [if_pos early]
        split_ifs at common <;> omega
      · have behind := montab_march (by omega : 2 ≤ month) bound
        rw [if_neg early]
        split_ifs at common <;> omega

/-! ## The date -/

/-- The leap years up to one between two centuries, and the leap days added. -/
theorem leapYears_added {w k : Nat} (low : 0 < k → 1800 + 100 * k ≤ w) (start : 1839 ≤ w)
    (high : w < 1900 + 100 * k) : leapYears w + addedDays k = (w - 1836) / 4 + 445 := by
  have century : w / 100 = 18 + k := by
    rcases Nat.eq_zero_or_pos k with rfl | some
    · omega
    · have low := low some
      omega
  have cycle : w / 400 = (18 + k) / 4 := by
    rw [← century, Nat.div_div_eq_div_mul]
  unfold leapYears addedDays
  rw [century, cycle]
  omega

theorem addedDays_pred_le (k : Nat) : addedDays (k - 1) ≤ addedDays k := by
  unfold addedDays
  omega

theorem montab_sum (d : CalendarDate) (first : 1 ≤ d.month) (last : d.month ≤ 12) :
    CalendarDate.daysBeforeMonth d.year d.month =
      (montab.take (d.month - 1)).sum + if 2 < d.month ∧ IsLeapYear d.year then 1 else 0 := by
  rw [CalendarDate.daysBeforeMonth_eq d.year first last]
  generalize d.month = m at first last
  congr 1
  interval_cases m <;> rfl

/-- The number of the date that a common day stands for. -/
theorem CommonDay.ordinal {day : Nat} {d : CalendarDate} {k number : Nat}
    (common : CommonDay day d) (isDay : day = number + addedDays k) (passed : CenturiesPassed number k) :
    d.ordinal = number + 671681 := by
  have base : BASE_YEAR = 1840 := rfl
  have yearGe := common.year_ge
  have counted := common.number
  have first := common.month_pos
  have last := common.month_le
  have dayPos := common.day_pos
  have dayLe := common.day_le
  rw [base] at yearGe counted
  have stops := passed.stops
  have before := addedDays_pred_le k
  -- the leap years passed are those up to one year
  have leaps : leapYears (d.year - 1) + (if 2 < d.month ∧ IsLeapYear d.year then 1 else 0) =
      leapYears (passedYear d) := by
    unfold passedYear
    by_cases early : d.month ≤ 2
    · rw [if_pos early, if_neg (by omega), Nat.add_zero]
    · obtain ⟨year, isYear⟩ := Nat.exists_eq_add_of_le' ((by decide : 1 ≤ 1840).trans yearGe)
      have late : 2 < d.month := by omega
      simp only [late, true_and]
      rw [if_neg early, isYear, Nat.add_sub_cancel, leapYears_succ]
  have count : leapYears (passedYear d) + addedDays k = (passedYear d - 1836) / 4 + 445 := by
    unfold passedYear at counted ⊢
    by_cases early : d.month ≤ 2
    · have inside := montab_february (by omega : d.month - 1 ≤ 1)
      rw [if_pos early] at counted ⊢
      apply leapYears_added
      · intro some
        have more := passed.passed some
        omega
      · omega
      · omega
    · have behind := montab_march (by omega : 2 ≤ d.month - 1) (by omega)
      have inside := montab_year (by omega : d.month - 1 < 12)
      rw [if_neg early] at counted ⊢
      apply leapYears_added
      · intro some
        have more := passed.passed some
        omega
      · omega
      · omega
  unfold CalendarDate.ordinal
  rw [montab_sum d first last]
  omega

theorem CommonDay.valid {day : Nat} {d : CalendarDate} (common : CommonDay day d) : d.Valid where
  year_pos := (by decide : 1 ≤ BASE_YEAR).trans common.year_ge
  month_pos := common.month_pos
  month_le := common.month_le
  day_pos := common.day_pos
  day_le := by
    apply common.day_le.trans
    have first := common.month_pos
    have last := common.month_le
    generalize d.month = m at first last
    by_cases leap : IsLeapYear d.year <;> interval_cases m <;> simp [montab, daysInMonth, leap]

/-- A 29th of February is met in leap years only: a century without one is stepped over. -/
theorem LeapDay.leap {day : Nat} {d : CalendarDate} {k number : Nat} (leapDay : LeapDay day d)
    (isDay : day = number + addedDays k) (passed : CenturiesPassed number k) :
    IsLeapYear d.year ∧ d.ordinal = number + 671681 := by
  have base : BASE_YEAR = 1840 := rfl
  have yearGe := leapDay.year_ge
  have counted := leapDay.number
  have stops := passed.stops
  rw [base] at yearGe counted
  obtain ⟨fourth, isFourth⟩ := leapDay.fourth
  have quarter : (d.year - 1840) / 4 = fourth - 460 := by omega
  rw [quarter] at counted
  have high : d.year ≤ 1800 + 100 * k + 99 := by omega
  have low : 0 < k → 1800 + 100 * k ≤ d.year := by
    intro some
    have more := passed.passed some
    have before := addedDays_pred_le k
    omega
  have leapYear : IsLeapYear d.year := by
    refine ⟨leapDay.fourth, ?_⟩
    rintro ⟨century, isCentury⟩
    have some : 0 < k := by omega
    have low := low some
    have more := passed.passed some
    -- no day was added for this century
    have same : addedDays k = addedDays (k - 1) := by
      have before := addedDays_pred_le k
      omega
    unfold addedDays at same
    omega
  refine ⟨leapYear, ?_⟩
  obtain ⟨year, isYear⟩ := Nat.exists_eq_add_of_le' ((by decide : 1 ≤ 1840).trans yearGe)
  have leaps := leapYears_succ year
  rw [← isYear, if_pos leapYear] at leaps
  have count : leapYears d.year + addedDays k = (d.year - 1836) / 4 + 445 :=
    leapYears_added low (by omega) (by omega)
  have february : CalendarDate.daysBeforeMonth d.year 2 = 31 := rfl
  unfold CalendarDate.ordinal
  rw [leapDay.month, leapDay.day_eq, february, isYear, Nat.add_sub_cancel]
  omega

/-- What the computation leaves of a day number that counts from 1 January 1840. -/
theorem splitDay_ordinal (number : Nat) :
    (splitDay (addLeapDays DAYS_BASE_TO_1900 number ADJUST_TO_1900)).Valid ∧
      (splitDay (addLeapDays DAYS_BASE_TO_1900 number ADJUST_TO_1900)).ordinal = number + 671681 := by
  obtain ⟨k, added, passed⟩ := addLeapDays_spec number
  rw [added]
  rcases splitDay_spec (number + addedDays k) with leapDay | common
  · obtain ⟨leapYear, ordinal⟩ := leapDay.leap rfl passed
    refine ⟨?_, ordinal⟩
    have thirty : daysInMonth (splitDay (number + addedDays k)).year 2 = 29 := if_pos leapYear
    constructor
    · exact (by decide : 1 ≤ BASE_YEAR).trans leapDay.year_ge
    · rw [leapDay.month]
      decide
    · rw [leapDay.month]
      decide
    · rw [leapDay.day_eq]
      decide
    · rw [leapDay.day_eq, leapDay.month, thirty]
  · exact ⟨common.valid, common.ordinal rfl passed⟩

/-- The day that is compared with the ends of the centuries stays in the range of an `int`. -/
theorem addLeapDays_lt {number : Nat} (high : number ≤ 364570453) :
    addLeapDays DAYS_BASE_TO_1900 number ADJUST_TO_1900 < 2 ^ 31 := by
  obtain ⟨k, added, passed⟩ := addLeapDays_spec number
  have few : addedDays k ≤ k := Nat.sub_le _ _
  have fewer : addedDays (k - 1) ≤ k - 1 := Nat.sub_le _ _
  rw [added]
  rcases Nat.eq_zero_or_pos k with rfl | some
  · omega
  · have more := passed.passed some
    omega

/-- The date of day 0. -/
def dayZero : CalendarDate := ⟨1840, 12, 31⟩

/-- A day number accepted, counted from the first accepted. -/
theorem op_fnzdate_eq {n : Nat} (bound : n ≤ 364570453) :
    op_fnzdate ((n : Int) - 365) =
      .ok ⟨splitDay (addLeapDays DAYS_BASE_TO_1900 n ADJUST_TO_1900),
        (n + ADJUST_TO_1900) % DAYS_IN_WEEK + 1⟩ := by
  have least : MIN_DATE = -365 := rfl
  have most : MAX_DATE = 364570088 := rfl
  have inside : ¬ (MAX_DATE < (n : Int) - 365 ∨ (n : Int) - 365 < MIN_DATE) := by
    rw [least, most]
    omega
  have year : (DAYS_MOST_YEARS : Int) = 365 := rfl
  rw [op_fnzdate, if_neg inside, year, Int.sub_add_cancel, Int.toNat_natCast]

theorem dayZero_valid : dayZero.Valid := by
  constructor <;> decide

theorem dayZero_ordinal : dayZero.ordinal = 672046 := by
  have months : CalendarDate.daysBeforeMonth 1840 12 = 335 := by decide
  have leaps : leapYears 1839 = 445 := by decide
  simp only [CalendarDate.ordinal, dayZero, months, leaps, Nat.reduceSub, Nat.reduceMul, Nat.reduceAdd]

/-- Every accepted day number gives the Gregorian date so many days after 31 December 1840 and
the day of the week of that date; the next number gives the next date. -/
theorem op_fnzdate_is_gregorian {day : Int} (low : MIN_DATE ≤ day) (high : day ≤ MAX_DATE) :
    ∃ z, op_fnzdate day = .ok z ∧ z.date.Valid ∧
      (0 ≤ day → z.date = CalendarDate.next^[day.toNat] dayZero) ∧
      (day ≤ 0 → dayZero = CalendarDate.next^[(-day).toNat] z.date) ∧
      z.dow = z.date.weekday ∧
      (day < MAX_DATE → ∃ dow, op_fnzdate (day + 1) = .ok ⟨z.date.next, dow⟩) ∧
      addLeapDays DAYS_BASE_TO_1900 (day + DAYS_MOST_YEARS).toNat ADJUST_TO_1900 < 2 ^ 31 := by
  have least : MIN_DATE = -365 := rfl
  have most : MAX_DATE = 364570088 := rfl
  rw [least] at low
  rw [most] at high
  obtain ⟨n, rfl⟩ : ∃ n : Nat, day = n - 365 := ⟨(day + 365).toNat, by omega⟩
  have bound : n ≤ 364570453 := by omega
  obtain ⟨valid, ordinal⟩ := splitDay_ordinal n
  refine ⟨_, op_fnzdate_eq bound, valid, ?_, ?_, ?_, ?_, ?_⟩
  · intro after
    apply CalendarDate.eq_iterate_next dayZero_valid valid
    rw [ordinal, dayZero_ordinal]
    omega
  · intro before
    apply CalendarDate.eq_iterate_next valid dayZero_valid
    rw [ordinal, dayZero_ordinal]
    omega
  · dsimp only
    have adjust : ADJUST_TO_1900 = 3 := rfl
    have week : DAYS_IN_WEEK = 7 := rfl
    rw [CalendarDate.weekday, ordinal, adjust, week]
    omega
  · intro more
    rw [most] at more
    obtain ⟨validNext, ordinalNext⟩ := splitDay_ordinal (n + 1)
    have follows : splitDay (addLeapDays DAYS_BASE_TO_1900 (n + 1) ADJUST_TO_1900) =
        (splitDay (addLeapDays DAYS_BASE_TO_1900 n ADJUST_TO_1900)).next := by
      apply CalendarDate.ordinal_injective validNext (CalendarDate.valid_next valid)
      have step : n + 1 + 671681 = n + 671681 + 1 := by omega
      calc _ = n + 1 + 671681 := ordinalNext
        _ = n + 671681 + 1 := step
        _ = _ := by rw [CalendarDate.ordinal_next valid, ordinal]
    have place : (n : Int) - 365 + 1 = ((n + 1 : Nat) : Int) - 365 := by omega
    rw [place, op_fnzdate_eq (by omega), follows]
    exact ⟨_, rfl⟩
  · have year : (DAYS_MOST_YEARS : Int) = 365 := rfl
    rw [year, Int.sub_add_cancel, Int.toNat_natCast]
    exact addLeapDays_lt bound

/-- The last of February 2000, a leap century. -/
theorem op_fnzdate_is_gregorian_leap_century :
    ∃ z, op_fnzdate 58133 = .ok z ∧ z.date = CalendarDate.next^[58133] dayZero ∧
      z.dow = z.date.weekday := by
  obtain ⟨z, computed, _, counted, _, weekday, _⟩ :=
    op_fnzdate_is_gregorian (by decide : MIN_DATE ≤ 58133) (by decide : (58133 : Int) ≤ MAX_DATE)
  exact ⟨z, computed, counted (by decide), weekday⟩

end Ydb
