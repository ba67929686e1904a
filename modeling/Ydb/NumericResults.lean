import Ydb.Lib.Truncation
import Ydb.StringScanning
import Ydb.NumericForms
import Ydb.LocalTree

/-!
# Results of arithmetic

Every arithmetic routine ends in the same choice. It has a sign, an exponent and
eighteen digits in two words; it reports an overflow, returns zero for an
underflow, or picks the numeric form: `MV_INT` when the number is a whole number
of thousandths within range, the float otherwise. `Delivers` says that an outcome
is what this choice makes of a rational.
-/

namespace Ydb

open Lib

/-- Upper bound on the exponent of an `MV_INT` number. -/
def EXP_INT_OVERF : Nat := 69

/-! ## Decimals as rationals -/

theorem truncateTo_short {m : ℕ} (k : ℤ) (narrow : m < 10 ^ 18) :
    truncateTo 10 18 (m * (10 : ℚ) ^ k) = m * (10 : ℚ) ^ k := by
  have kept := truncateTo_of_short (b := 10) (k := k) (by decide) narrow
  rwa [Nat.cast_ofNat] at kept

/-- The same for a signed multiplier. -/
theorem truncateTo_short_int {j : ℤ} (k : ℤ) (narrow : j.natAbs < 10 ^ 18) :
    truncateTo 10 18 (j * (10 : ℚ) ^ k) = j * (10 : ℚ) ^ k := by
  obtain ⟨m, rfl | rfl⟩ := Int.eq_nat_or_neg j
  · rw [Int.cast_natCast]
    exact truncateTo_short k narrow
  · rw [Int.natAbs_neg, Int.natAbs_natCast] at narrow
    rw [Int.cast_neg, Int.cast_natCast, neg_mul, truncateTo_neg, truncateTo_short k narrow]

namespace Decimal

theorem value_abs (d : Decimal) : |d.value| = d.mant * 10 ^ (d.exp - 18) := by
  have positive := d.magnitude_pos
  unfold value
  cases d.neg
  · rw [signFactor, one_mul, abs_of_pos positive]
  · rw [signFactor, neg_one_mul, abs_neg, abs_of_pos positive]

theorem exponent_value (d : Decimal) : exponent 10 d.value = d.exp := by
  obtain ⟨lo, hi⟩ := d.value_abs_bounds
  apply exponent_of_bounds (by decide)
  · rw [d.value_abs]
    exact lo
  · rw [d.value_abs]
    exact hi

/-- Two words with their sign and biased exponent. -/
def ofWords (sgn : Bool) (exp : Int) (m1 m0 : Nat) (lo : MANT_LO ≤ m1) (hi : m1 < MANT_HI)
    (low : m0 < MANT_HI) : Decimal where
  neg := sgn
  exp := exp - MV_XBIAS
  mant := m1 * 10 ^ 9 + m0
  lo := by
    simp only [MANT_LO] at lo
    omega
  hi := by
    simp only [MANT_HI] at hi low
    omega

end Decimal

/-! ## The choice of form -/

/-- The test before a result is demoted to `MV_INT`. -/
def demotable (exp : Int) (m1 m0 : Nat) : Bool :=
  exp < EXP_INT_OVERF && (EXP_INT_UNDERF : Int) < exp && m0 == 0 &&
    m1 % ten_pwr (EXP_INT_OVERF - 1 - exp).toNat == 0

theorem demotable_iff (exp : Int) (m1 m0 : Nat) : demotable exp m1 m0 = true ↔
    exp < 69 ∧ 59 < exp ∧ m0 = 0 ∧ 10 ^ (68 - exp).toNat ∣ m1 := by
  have power : 59 < exp → ten_pwr (EXP_INT_OVERF - 1 - exp).toNat = 10 ^ (68 - exp).toNat := by
    intro above
    simp only [EXP_INT_OVERF]
    exact ten_pwr_eq _ (by omega)
  rw [demotable, Bool.and_eq_true, Bool.and_eq_true, Bool.and_eq_true, decide_eq_true_eq,
    decide_eq_true_eq, beq_iff_eq, beq_iff_eq, and_assoc, and_assoc]
  change exp < 69 ∧ 59 < exp ∧ m0 = 0 ∧ _ ↔ _
  constructor
  · rintro ⟨below, above, empty, divides⟩
    rw [power above] at divides
    exact ⟨below, above, empty, Nat.dvd_of_mod_eq_zero divides⟩
  · rintro ⟨below, above, empty, divides⟩
    rw [power above]
    exact ⟨below, above, empty, Nat.mod_eq_zero_of_dvd divides⟩

/-- A demotable result is a whole number of thousandths. -/
theorem demoted_value {exp : Int} {m1 m0 : Nat} (sgn : Bool) (lo : MANT_LO ≤ m1)
    (hi : m1 < MANT_HI) (low : m0 < MANT_HI) (demoted : demotable exp m1 m0 = true) :
    (Decimal.ofWords sgn exp m1 m0 lo hi low).value =
      signFactor sgn * ((m1 / ten_pwr (EXP_INT_OVERF - 1 - exp).toNat : Nat) : ℚ) / MV_BIAS := by
  obtain ⟨below, above, rfl, part, rfl⟩ := (demotable_iff exp m1 m0).mp demoted
  have power : ten_pwr (EXP_INT_OVERF - 1 - exp).toNat = 10 ^ (68 - exp).toNat := by
    simp only [EXP_INT_OVERF]
    exact ten_pwr_eq _ (by omega)
  have scale : (10 : ℚ) ^ (68 - exp).toNat * 10 ^ (9 : ℕ) * 10 ^ (exp - MV_XBIAS - 18) =
      1 / 1000 := by
    rw [← zpow_natCast, ← zpow_natCast, ← zpow_add₀ (by norm_num), ← zpow_add₀ (by norm_num)]
    rw [show (((68 - exp).toNat : ℕ) : ℤ) + ((9 : ℕ) : ℤ) + (exp - MV_XBIAS - 18) = -3 by
      simp only [MV_XBIAS]; omega]
    norm_num
  rw [power, Nat.mul_div_cancel_left _ (Nat.pow_pos (by decide))]
  simp only [Decimal.value, Decimal.ofWords, MV_BIAS, Nat.add_zero]
  push_cast
  calc signFactor sgn * ((10 : ℚ) ^ (68 - exp).toNat * part * 10 ^ 9 * 10 ^ (exp - MV_XBIAS - 18))
      = signFactor sgn * part *
          ((10 : ℚ) ^ (68 - exp).toNat * 10 ^ (9 : ℕ) * 10 ^ (exp - MV_XBIAS - 18)) := by ring
    _ = _ := by
        rw [scale]
        ring

/-- Only a demotable result is a whole number of thousandths within range. -/
theorem demotable_of_representable {exp : Int} {m1 m0 : Nat} {sgn : Bool} {lo : MANT_LO ≤ m1}
    {hi : m1 < MANT_HI} {low : m0 < MANT_HI} {m : ℤ} (small : m.natAbs < MANT_HI)
    (same : (Decimal.ofWords sgn exp m1 m0 lo hi low).value = m / MV_BIAS) :
    demotable exp m1 m0 = true := by
  let v : Mval := ⟨⟨true, true, false, false, false⟩, false, 0, 0, m, []⟩
  have isInt : v.IsInt := ⟨rfl, rfl, small⟩
  have value : (Decimal.ofWords sgn exp m1 m0 lo hi low).value = v.value := same
  have nonzero : v.m1 ≠ 0 := fun zero =>
    Decimal.value_ne_zero _ (value.trans (isInt.value_eq_zero.mpr zero))
  obtain ⟨w, narrow, some, above, below, thousandths⟩ := isInt.decimal nonzero
  have decimals := Decimal.value_injective (value.trans thousandths.symm)
  have exps : exp - MV_XBIAS = w - 3 := congrArg Decimal.exp decimals
  have mants : m1 * 10 ^ 9 + m0 = v.m1.natAbs * 10 ^ (18 - w) := congrArg Decimal.mant decimals
  simp only [MV_XBIAS] at exps
  simp only [MANT_HI] at low
  have shifted : v.m1.natAbs * 10 ^ (18 - w) = v.m1.natAbs * 10 ^ (9 - w) * 10 ^ 9 := by
    rw [Nat.mul_assoc, ← Nat.pow_add]
    congr 2
    omega
  rw [demotable_iff]
  refine ⟨by omega, by omega, by omega, ?_⟩
  rw [show (68 - exp).toNat = 9 - w by omega]
  exact ⟨v.m1.natAbs, by rw [Nat.mul_comm]; omega⟩

/-! ## Outcomes -/

/-- An outcome is what the choice of form makes of a rational: a numeric overflow
from exponent `EXPHI` on, zero for zero and below exponent `EXPLO`, and otherwise
the canonical form of the number. -/
structure Delivers (r : ℚ) (outcome : Except RtsError Mval) : Prop where
  overflow : (EXPHI : Int) ≤ exponent 10 r + MV_XBIAS → outcome = .error .numoflow
  vanished : r = 0 ∨ exponent 10 r + MV_XBIAS < EXPLO →
    ∃ w, outcome = .ok w ∧ w.IsInt ∧ w.m1 = 0
  number : r ≠ 0 → (EXPLO : Int) ≤ exponent 10 r + MV_XBIAS → exponent 10 r + MV_XBIAS < EXPHI →
    ∃ w, outcome = .ok w ∧ w.Canonical ∧ w.value = r

theorem Delivers.of_zero {outcome : Except RtsError Mval} {w : Mval} (returned : outcome = .ok w)
    (isInt : w.IsInt) (zero : w.m1 = 0) : Delivers 0 outcome where
  overflow := by
    intro large
    simp only [exponent, abs_zero, Int.log_zero_right, EXPHI, MV_XBIAS] at large
    omega
  vanished := fun _ => ⟨w, returned, isInt, zero⟩
  number := fun nonzero => absurd rfl nonzero

/-- A number that is delivered is in one of the two forms. -/
theorem Delivers.form {r : ℚ} {w : Mval} (delivers : Delivers r (.ok w)) : w.IsInt ∨ w.IsFloat := by
  by_cases large : (EXPHI : Int) ≤ exponent 10 r + MV_XBIAS
  · exact nomatch delivers.overflow large
  · by_cases small : r = 0 ∨ exponent 10 r + MV_XBIAS < EXPLO
    · obtain ⟨_, ⟨⟩, isInt, _⟩ := delivers.vanished small
      exact .inl isInt
    · rw [not_or, not_lt] at small
      obtain ⟨_, ⟨⟩, canonical, _⟩ := delivers.number small.1 small.2 (not_le.mp large)
      exact canonical.imp_right And.left

/-- The outcomes of a result in two normalised words. -/
theorem Delivers.of_words {outcome : Except RtsError Mval} {sgn : Bool} {exp : Int} {m1 m0 : Nat}
    (lo : MANT_LO ≤ m1) (hi : m1 < MANT_HI) (low : m0 < MANT_HI)
    (overflow : (EXPHI : Int) ≤ exp → outcome = .error .numoflow)
    (underflow : exp < EXPLO → ∃ w, outcome = .ok w ∧ w.IsInt ∧ w.m1 = 0)
    (int : demotable exp m1 m0 = true → ∃ w, outcome = .ok w ∧ w.mvtype.nm = true ∧
      w.mvtype.int = true ∧
      w.m1 = if sgn then -((m1 / ten_pwr (EXP_INT_OVERF - 1 - exp).toNat : Nat) : Int)
        else (m1 / ten_pwr (EXP_INT_OVERF - 1 - exp).toNat : Nat))
    (float : demotable exp m1 m0 = false → (EXPLO : Int) ≤ exp → exp < EXPHI →
      ∃ w, outcome = .ok w ∧ w.mvtype.nm = true ∧ w.mvtype.int = false ∧ w.sgn = sgn ∧
        (w.e : Int) = exp ∧ w.m1 = m1 ∧ w.m0 = m0) :
    Delivers (Decimal.ofWords sgn exp m1 m0 lo hi low).value outcome := by
  have exponents : exponent 10 (Decimal.ofWords sgn exp m1 m0 lo hi low).value + MV_XBIAS = exp := by
    rw [Decimal.exponent_value]
    exact Int.sub_add_cancel exp MV_XBIAS
  constructor
  · intro large
    rw [exponents] at large
    exact overflow large
  · rintro (zero | small)
    · exact absurd zero (Decimal.value_ne_zero _)
    · rw [exponents] at small
      exact underflow small
  · intro _ above below
    rw [exponents] at above below
    cases demoted : demotable exp m1 m0 with
    | true =>
      obtain ⟨w, returned, nm, isInt, digits⟩ := int demoted
      refine ⟨w, returned, .inl ⟨nm, isInt, ?_⟩, ?_⟩
      · have quotient : m1 / ten_pwr (EXP_INT_OVERF - 1 - exp).toNat < MANT_HI :=
          lt_of_le_of_lt (Nat.div_le_self _ _) hi
        rw [digits]
        cases sgn
        · exact quotient
        · rw [if_pos rfl, Int.natAbs_neg]
          exact quotient
      · rw [demoted_value sgn lo hi low demoted, Mval.value, isInt, if_pos rfl, digits]
        cases sgn
        · rw [if_neg Bool.false_ne_true, signFactor, one_mul, Int.cast_natCast]
        · rw [if_pos rfl, signFactor, neg_one_mul, Int.cast_neg, Int.cast_natCast]
    | false =>
      obtain ⟨w, returned, nm, isFloat, sign, e, high, rest⟩ := float demoted above below
      have value : w.value = (Decimal.ofWords sgn exp m1 m0 lo hi low).value := by
        simp only [Mval.value, Decimal.value, Decimal.ofWords, isFloat, sign, e, high, rest,
          MANT_HI, Bool.false_eq_true, if_false]
        push_cast
        ring
      refine ⟨w, returned, .inr ⟨⟨nm, isFloat, ?_, ?_, ?_, ?_, ?_, ?_⟩, ?_⟩, value⟩
      · rw [high]
        exact_mod_cast lo
      · rw [high]
        exact_mod_cast hi
      · rw [rest]
        exact Int.natCast_nonneg _
      · rw [rest]
        exact_mod_cast low
      · omega
      · omega
      · rintro ⟨m, small, same⟩
        rw [value] at same
        rw [demotable_of_representable small same] at demoted
        cases demoted

/-- An outcome overflows exactly from exponent `EXPHI` on. -/
theorem Delivers.overflow_iff {r : ℚ} {outcome : Except RtsError Mval} (delivers : Delivers r outcome) :
    outcome = .error .numoflow ↔ (EXPHI : Int) ≤ exponent 10 r + MV_XBIAS := by
  constructor
  · intro overflowed
    by_contra below
    rw [not_le] at below
    by_cases gone : r = 0 ∨ exponent 10 r + MV_XBIAS < EXPLO
    · obtain ⟨w, returned, _⟩ := delivers.vanished gone
      rw [overflowed] at returned
      cases returned
    · rw [not_or, not_lt] at gone
      obtain ⟨w, returned, _⟩ := delivers.number gone.1 gone.2 below
      rw [overflowed] at returned
      cases returned
  · exact delivers.overflow

theorem exponent_zero_lt : exponent 10 0 + MV_XBIAS < EXPHI := by
  simp [exponent, EXPHI, MV_XBIAS]

/-- An outcome is zero exactly for zero and below exponent `EXPLO`. -/
theorem Delivers.zero_iff {r : ℚ} {outcome : Except RtsError Mval} (delivers : Delivers r outcome) :
    (∃ w, outcome = .ok w ∧ w.value = 0) ↔ r = 0 ∨ exponent 10 r + MV_XBIAS < EXPLO := by
  constructor
  · rintro ⟨w, returned, zero⟩
    by_contra stays
    rw [not_or, not_lt] at stays
    by_cases large : (EXPHI : Int) ≤ exponent 10 r + MV_XBIAS
    · rw [delivers.overflow large] at returned
      cases returned
    · obtain ⟨found, same, _, value⟩ := delivers.number stays.1 stays.2 (not_le.mp large)
      rw [same] at returned
      obtain rfl := Except.ok.inj returned
      exact stays.1 (value.symm.trans zero)
  · intro gone
    obtain ⟨w, returned, isInt, zero⟩ := delivers.vanished gone
    exact ⟨w, returned, isInt.value_eq_zero.mpr zero⟩

/-- A returned value is canonical. -/
theorem Delivers.canonical {r : ℚ} {outcome : Except RtsError Mval} (delivers : Delivers r outcome)
    {w : Mval} (returned : outcome = .ok w) : w.Canonical := by
  by_cases gone : r = 0 ∨ exponent 10 r + MV_XBIAS < EXPLO
  · obtain ⟨found, same, isInt, _⟩ := delivers.vanished gone
    rw [same] at returned
    obtain rfl := Except.ok.inj returned
    exact .inl isInt
  · rw [not_or, not_lt] at gone
    by_cases large : (EXPHI : Int) ≤ exponent 10 r + MV_XBIAS
    · rw [delivers.overflow large] at returned
      cases returned
    · obtain ⟨found, same, canonical, _⟩ := delivers.number gone.1 gone.2 (not_le.mp large)
      rw [same] at returned
      obtain rfl := Except.ok.inj returned
      exact canonical

/-- Agreement of two outcomes: the same error, or the same number. -/
def SameOutcome (left right : Except RtsError Mval) : Prop :=
  (∃ e, left = .error e ∧ right = .error e) ∨
    ∃ u v, left = .ok u ∧ right = .ok v ∧ u.SameNumber v

/-- A rational determines the outcome up to the fields that carry no number. -/
theorem Delivers.same {r : ℚ} {left right : Except RtsError Mval} (first : Delivers r left)
    (second : Delivers r right) : SameOutcome left right := by
  by_cases gone : r = 0 ∨ exponent 10 r + MV_XBIAS < EXPLO
  · obtain ⟨u, uReturned, uInt, uZero⟩ := first.vanished gone
    obtain ⟨v, vReturned, vInt, vZero⟩ := second.vanished gone
    refine .inr ⟨u, v, uReturned, vReturned, ?_⟩
    apply Mval.Canonical.fields_unique (.inl uInt) (.inl vInt)
    rw [uInt.value_eq_zero.mpr uZero, vInt.value_eq_zero.mpr vZero]
  · rw [not_or, not_lt] at gone
    by_cases large : (EXPHI : Int) ≤ exponent 10 r + MV_XBIAS
    · exact .inl ⟨_, first.overflow large, second.overflow large⟩
    · obtain ⟨u, uReturned, uCanonical, uValue⟩ := first.number gone.1 gone.2 (not_le.mp large)
      obtain ⟨v, vReturned, vCanonical, vValue⟩ := second.number gone.1 gone.2 (not_le.mp large)
      refine .inr ⟨u, v, uReturned, vReturned, ?_⟩
      exact Mval.Canonical.fields_unique uCanonical vCanonical (uValue.trans vValue.symm)

end Ydb
