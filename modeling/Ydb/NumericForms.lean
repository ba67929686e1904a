import Mathlib.Data.Nat.Log
import Mathlib.Tactic.LinearCombination
import Mathlib.Tactic.Positivity
import Ydb.Decimal

/-!
# The two numeric forms as decimals

Every `MV_INT` value other than zero and every float is one decimal. The
correspondence fixes the digits, sign and exponent that the conversion routines
read from the machine fields. Since a number has one decimal form, canonical
values that denote the same number have the same fields.
-/

namespace Ydb

open Lib

/-- The width of a nonzero word: its digit count in base ten. -/
theorem exists_width (m : Nat) (positive : 0 < m) (small : m < 10 ^ 9) :
    ∃ n, 1 ≤ n ∧ n ≤ 9 ∧ 10 ^ (n - 1) ≤ m ∧ m < 10 ^ n := by
  refine ⟨Nat.log 10 m + 1, by omega, ?_, ?_, Nat.lt_pow_succ_log_self (by decide) m⟩
  · have bound : Nat.log 10 m < 9 := Nat.log_lt_of_lt_pow (by omega) small
    omega
  · exact Nat.pow_log_le_self 10 (by omega)

/-- The decimal of a nonzero thousandfold integer of `n` digits. -/
def Decimal.ofThousandths (neg : Bool) (m n : Nat) (narrow : n ≤ 9) (some : 1 ≤ n)
    (lo : 10 ^ (n - 1) ≤ m) (hi : m < 10 ^ n) : Decimal where
  neg := neg
  exp := n - 3
  mant := m * 10 ^ (18 - n)
  lo := by
    calc 10 ^ 17 = 10 ^ (n - 1) * 10 ^ (18 - n) := by rw [← Nat.pow_add]; congr 1; omega
      _ ≤ m * 10 ^ (18 - n) := Nat.mul_le_mul_right _ lo
  hi := by
    calc m * 10 ^ (18 - n) < 10 ^ n * 10 ^ (18 - n) :=
          Nat.mul_lt_mul_of_pos_right hi (Nat.pow_pos (by decide))
      _ = 10 ^ 18 := by rw [← Nat.pow_add]; congr 1; omega

/-- The denoted number is the integer count of thousandths. -/
theorem Decimal.ofThousandths_value (neg : Bool) (m n : Nat) (narrow : n ≤ 9) (some : 1 ≤ n)
    (lo : 10 ^ (n - 1) ≤ m) (hi : m < 10 ^ n) :
    (Decimal.ofThousandths neg m n narrow some lo hi).value =
      signFactor neg * (m / 1000) := by
  have scale : ((10 : ℚ) ^ (18 - n)) * 10 ^ (((n : ℤ) - 3) - 18) = 1 / 1000 := by
    rw [← zpow_natCast, ← zpow_add₀ (by norm_num), Nat.cast_sub (by omega)]
    rw [show ((18 : ℕ) : ℤ) - n + ((n : ℤ) - 3 - 18) = -3 by push_cast; ring]
    norm_num
  simp only [Decimal.value, Decimal.ofThousandths]
  push_cast
  rw [mul_assoc, scale, mul_one_div]

/-- A nonzero `MV_INT` value has the decimal of its thousandfold multiple. -/
theorem Mval.IsInt.decimal {v : Mval} (isInt : v.IsInt) (nonzero : v.m1 ≠ 0) :
    ∃ n, ∃ narrow : n ≤ 9, ∃ some : 1 ≤ n, ∃ lo : 10 ^ (n - 1) ≤ v.m1.natAbs,
      ∃ hi : v.m1.natAbs < 10 ^ n,
        (Decimal.ofThousandths (decide (v.m1 < 0)) v.m1.natAbs n narrow some lo hi).value =
          v.value := by
  obtain ⟨n, some, narrow, lo, hi⟩ := exists_width v.m1.natAbs (by omega) isInt.small
  refine ⟨n, narrow, some, lo, hi, ?_⟩
  rw [Decimal.ofThousandths_value, Mval.value, isInt.int]
  have absolute : ((v.m1.natAbs : ℕ) : ℚ) = |(v.m1 : ℚ)| := by
    rw [← Int.cast_abs, Int.abs_eq_natAbs]
    rfl
  by_cases negative : v.m1 < 0
  · have below : (v.m1 : ℚ) < 0 := by exact_mod_cast negative
    rw [absolute, abs_of_neg below]
    simp [negative, MV_BIAS, signFactor]
    ring
  · have above : (0 : ℚ) ≤ v.m1 := by exact_mod_cast Int.not_lt.mp negative
    rw [absolute, abs_of_nonneg above]
    simp [negative, MV_BIAS, signFactor]

/-- The bounds of the words of a float. -/
theorem Mval.IsFloat.bounds {v : Mval} (isFloat : v.IsFloat) :
    (10 ^ 8 ≤ v.m1 ∧ v.m1 < 10 ^ 9) ∧ 0 ≤ v.m0 ∧ v.m0 < 10 ^ 9 :=
  ⟨⟨isFloat.m1_lo, isFloat.m1_hi⟩, isFloat.m0_lo, isFloat.m0_hi⟩

/-- A float in two natural numbers. -/
theorem Mval.IsFloat.words {v : Mval} (isFloat : v.IsFloat) : ∃ high low : Nat, v.m1 = high ∧ v.m0 = low ∧
    10 ^ 8 ≤ high ∧ high < 10 ^ 9 ∧ low < 10 ^ 9 := by
  have bounds := isFloat.bounds
  exact ⟨v.m1.toNat, v.m0.toNat, by omega, by omega, by omega, by omega, by omega⟩

/-- The decimal of a normalised float. -/
def Mval.IsFloat.toDecimal {v : Mval} (isFloat : v.IsFloat) : Decimal where
  neg := v.sgn
  exp := v.e - 62
  mant := v.m1.toNat * 10 ^ 9 + v.m0.toNat
  lo := by
    have lower := isFloat.m1_lo
    simp only [MANT_LO] at lower
    omega
  hi := by
    have upper := isFloat.m1_hi
    have rest := isFloat.m0_hi
    simp only [MANT_HI] at upper rest
    omega

theorem Mval.IsFloat.toDecimal_value {v : Mval} (isFloat : v.IsFloat) :
    isFloat.toDecimal.value = v.value := by
  have m1 : ((v.m1.toNat : ℕ) : ℚ) = v.m1 := by
    have lower := isFloat.m1_lo
    simp only [MANT_LO] at lower
    exact_mod_cast Int.toNat_of_nonneg (by omega)
  have m0 : ((v.m0.toNat : ℕ) : ℚ) = v.m0 := by
    exact_mod_cast Int.toNat_of_nonneg isFloat.m0_lo
  simp only [Decimal.value, Mval.IsFloat.toDecimal, Mval.value, isFloat.int, MANT_HI, MV_XBIAS]
  push_cast
  rw [m1, m0]
  ring

theorem Mval.IsFloat.sgn_iff {w : Mval} (isFloat : w.IsFloat) : w.sgn = true ↔ w.value < 0 := by
  rw [← isFloat.toDecimal_value]
  exact isFloat.toDecimal.neg_iff

theorem Mval.IsFloat.inRange {v : Mval} (isFloat : v.IsFloat) : isFloat.toDecimal.InRange := by
  have lower := isFloat.e_lo
  have upper := isFloat.e_hi
  simp only [EXPLO, EXPHI] at lower upper
  simp only [Decimal.InRange, Mval.IsFloat.toDecimal]
  omega

theorem Mval.IsInt.value_eq_zero {v : Mval} (isInt : v.IsInt) : v.value = 0 ↔ v.m1 = 0 := by
  simp [Mval.value, isInt.int, MV_BIAS]

/-- Numeric forms as decimals: zero, or one decimal in the exponent range. -/
theorem Mval.form_cases {v : Mval} (valid : v.IsInt ∨ v.IsFloat) :
    (v.value = 0 ∧ v.IsInt ∧ v.m1 = 0) ∨ ∃ d : Decimal, d.value = v.value ∧ d.InRange := by
  rcases valid with isInt | isFloat
  · by_cases zero : v.m1 = 0
    · exact .inl ⟨isInt.value_eq_zero.mpr zero, isInt, zero⟩
    · obtain ⟨n, narrow, some, lo, hi, same⟩ := isInt.decimal zero
      refine .inr ⟨_, same, ?_⟩
      simp only [Decimal.InRange, Decimal.ofThousandths]
      omega
  · exact .inr ⟨_, isFloat.toDecimal_value, isFloat.inRange⟩

/-- A float is canonical if its digits, counted in thousandths, are too many or leave a rest. -/
theorem Mval.IsFloat.canonical {v : Mval} (isFloat : v.IsFloat) (k : ℕ) (scale : v.e + k = 77)
    (rest : 10 ^ 9 * 10 ^ k ≤ v.m1 * 10 ^ 9 + v.m0 ∨ ¬ 10 ^ k ∣ v.m1 * 10 ^ 9 + v.m0) :
    v.Canonical := by
  refine .inr ⟨isFloat, ?_⟩
  rintro ⟨m, small, same⟩
  have exp : (v.e : ℤ) - MV_XBIAS - 18 = -k - 3 := by
    simp only [MV_XBIAS]
    omega
  rw [Mval.value, isFloat.int, if_neg Bool.false_ne_true, exp, zpow_sub₀ (by decide), zpow_neg,
    zpow_natCast] at same
  have power : ((10 : ℚ) ^ k)⁻¹ * 10 ^ k = 1 := inv_mul_cancel₀ (pow_ne_zero k (by decide))
  obtain ⟨x, bound, digits⟩ : ∃ x : ℤ, x.natAbs < 10 ^ 9 ∧
      (v.m1 * 10 ^ 9 + v.m0 : ℚ) = x * 10 ^ k := by
    cases sign : v.sgn
    · refine ⟨m, small, ?_⟩
      simp only [sign, signFactor, MANT_HI, MV_BIAS] at same
      linear_combination 1000 * 10 ^ k * same - (v.m1 * 10 ^ 9 + v.m0 : ℚ) * power
    · refine ⟨-m, by rwa [Int.natAbs_neg], ?_⟩
      simp only [sign, signFactor, MANT_HI, MV_BIAS] at same
      rw [Int.cast_neg]
      linear_combination -1000 * 10 ^ k * same - (v.m1 * 10 ^ 9 + v.m0 : ℚ) * power
  have digits : v.m1 * 10 ^ 9 + v.m0 = x * 10 ^ k := by exact_mod_cast digits
  rcases rest with many | rest
  · rw [digits] at many
    have large := le_of_mul_le_mul_right many (by positivity)
    omega
  · exact rest (digits ▸ Int.dvd_mul_left _ _)

/-- Agreement on the fields that carry the number. -/
def Mval.SameNumber (u v : Mval) : Prop :=
  u.mvtype.int = v.mvtype.int ∧
    (if u.mvtype.int then u.m1 = v.m1
     else u.sgn = v.sgn ∧ u.e = v.e ∧ u.m1 = v.m1 ∧ u.m0 = v.m0)

/-- Canonical values that denote the same number have the same numeric fields.

An `MV_INT` value cannot equal a canonical float, since that float would be
representable. Two `MV_INT` values compare their numerators; two floats have the
same decimal, whose digits and exponent are the fields themselves. -/
theorem Mval.Canonical.fields_unique {u v : Mval} (left : u.Canonical) (right : v.Canonical)
    (same : u.value = v.value) : u.SameNumber v := by
  rcases left with uInt | ⟨uFloat, uOnly⟩
  · rcases right with vInt | ⟨vFloat, vOnly⟩
    · refine ⟨by rw [uInt.int, vInt.int], ?_⟩
      simp only [Mval.value, uInt.int, vInt.int, if_true, MV_BIAS] at same ⊢
      have numerators : (u.m1 : ℚ) = v.m1 := by
        have scaled := congrArg (· * (1000 : ℚ)) same
        simpa using scaled
      exact_mod_cast numerators
    · refine absurd ⟨u.m1, uInt.small, ?_⟩ vOnly
      rw [← same]
      simp [Mval.value, uInt.int]
  · rcases right with vInt | ⟨vFloat, vOnly⟩
    · refine absurd ⟨v.m1, vInt.small, ?_⟩ uOnly
      rw [same]
      simp [Mval.value, vInt.int]
    · have decimals : uFloat.toDecimal = vFloat.toDecimal := by
        apply Decimal.value_injective
        rw [uFloat.toDecimal_value, vFloat.toDecimal_value, same]
      have signs : u.sgn = v.sgn := congrArg Decimal.neg decimals
      have exps : (u.e : ℤ) - 62 = v.e - 62 := congrArg Decimal.exp decimals
      have mants : u.m1.toNat * 10 ^ 9 + u.m0.toNat = v.m1.toNat * 10 ^ 9 + v.m0.toNat :=
        congrArg Decimal.mant decimals
      have bounds := And.intro uFloat.m1_lo vFloat.m1_lo
      have lower := And.intro uFloat.m0_lo vFloat.m0_lo
      have upper := And.intro uFloat.m0_hi vFloat.m0_hi
      simp only [MANT_LO, MANT_HI] at bounds upper
      refine ⟨by rw [uFloat.int, vFloat.int], ?_⟩
      rw [uFloat.int]
      refine ⟨signs, by omega, by omega, by omega⟩

end Ydb
