import Ydb.Modulo

/-!
# When the modulus is exact

The result of `flt_mod` is compared with the exact modulus. The routine errs in three
ways: the truncated quotient of operands with different signs may have lost the
fraction that rounds it down, the product may need digits below the window of the
subtraction, and the product or the difference may leave the exponent range. A
modulus that has no form of eighteen digits is approximated; it is small enough
unless the dividend lies below the last digit of the divisor.
-/

namespace Ydb

open Lib

/-! ## The exact modulus -/

/-- The modulus of two rationals. -/
def modulus (x y : ℚ) : ℚ := x - ⌊x / y⌋ * y

/-- A value that may stand for the modulus: zero or with the sign of the divisor,
smaller than the divisor, and the modulus itself if that has eighteen digits. -/
structure IsModulo (x y r : ℚ) : Prop where
  sign : r = 0 ∨ 0 < r * y
  small : |r| < |y|
  exact : truncateTo 10 18 (modulus x y) = modulus x y → r = modulus x y

theorem modulus_eq {x y : ℚ} (nonzero : y ≠ 0) : modulus x y = Int.fract (x / y) * y := by
  rw [modulus, Int.fract, sub_mul, div_mul_cancel₀ x nonzero]

theorem abs_modulus_lt {x y : ℚ} (nonzero : y ≠ 0) : |modulus x y| < |y| := by
  rw [modulus_eq nonzero, abs_mul, abs_of_nonneg (Int.fract_nonneg _)]
  exact mul_lt_of_lt_one_left (abs_pos.mpr nonzero) (Int.fract_lt_one _)

/-- The exact modulus stands for itself. -/
theorem modulus_isModulo {x y : ℚ} (nonzero : y ≠ 0) : IsModulo x y (modulus x y) where
  sign := by
    rw [modulus_eq nonzero, mul_assoc]
    rcases (Int.fract_nonneg (x / y)).eq_or_lt with zero | positive
    · left
      rw [← zero, zero_mul]
    · right
      exact mul_pos positive (mul_self_pos.mpr nonzero)
  small := abs_modulus_lt nonzero
  exact := fun _ => rfl

/-- A number that has a numeric form. -/
def HasForm (q : ℚ) : Prop := q = 0 ∨ ∃ d : Decimal, d.value = q ∧ d.InRange

theorem Mval.Canonical.hasForm {v : Mval} (canonical : v.Canonical) : HasForm v.value := by
  rcases v.form_cases canonical.form with ⟨zero, _⟩ | numeric
  · exact .inl zero
  · exact .inr numeric

section Forms

variable {x y : ℚ}

theorem Decimal.isMultiple (d : Decimal) : IsMultiple 10 (d.exp - 18) d.value := by
  refine ⟨if d.neg then -d.mant else d.mant, ?_⟩
  rw [Decimal.value]
  cases d.neg <;> simp [signFactor]

theorem HasForm.isMultiple (form : HasForm x) : IsMultiple 10 (exponent 10 x - 18) x := by
  rcases form with rfl | ⟨d, rfl, _⟩
  · exact ⟨0, by simp⟩
  · rw [d.exponent_value]
    exact d.isMultiple

theorem HasForm.exponent_range (form : HasForm x) (nonzero : x ≠ 0) :
    (EXPLO : Int) ≤ exponent 10 x + MV_XBIAS ∧ exponent 10 x + MV_XBIAS < EXPHI := by
  rcases form with zero | ⟨d, rfl, inRange⟩
  · exact absurd zero nonzero
  · rw [d.exponent_value]
    simp only [Decimal.InRange, EXPLO, EXPHI, MV_XBIAS] at inRange ⊢
    omega

/-- The modulus of a dividend that is not shorter than the divisor has eighteen
digits. -/
theorem modulus_short (xForm : HasForm x) (yForm : HasForm y) (nonzero : y ≠ 0)
    (wide : exponent 10 y ≤ exponent 10 x) : truncateTo 10 18 (modulus x y) = modulus x y := by
  have multiple : IsMultiple 10 (exponent 10 y - 18) (modulus x y) := by
    apply (xForm.isMultiple.mono (by decide) (by omega)).sub
    rw [mul_comm]
    exact yForm.isMultiple.mul_int _
  apply multiple.truncateTo_eq (by decide)
  rw [Nat.cast_ofNat, Nat.cast_ofNat, Int.sub_add_cancel]
  have bound := (exponent_bounds (b := 10) (by decide) nonzero).2
  rw [Nat.cast_ofNat] at bound
  exact lt_trans (abs_modulus_lt nonzero) bound

end Forms

/-! ## The window of the subtraction -/

theorem largerExponent_eq {x d : ℚ} (xNonzero : x ≠ 0) (dNonzero : d ≠ 0) :
    largerExponent x d = max (exponent 10 x) (exponent 10 d) := by
  rw [largerExponent, if_neg xNonzero, if_neg dNonzero]

/-- The larger exponent bounds both magnitudes. -/
theorem largerExponent_bounds {x d : ℚ} (xNonzero : x ≠ 0) (dNonzero : d ≠ 0) :
    |x| < 10 ^ largerExponent x d ∧ |d| < 10 ^ largerExponent x d := by
  rw [largerExponent_eq xNonzero dNonzero]
  have first := (exponent_bounds (b := 10) (by decide) xNonzero).2
  have second := (exponent_bounds (b := 10) (by decide) dNonzero).2
  rw [Nat.cast_ofNat] at first second
  constructor
  · exact lt_of_lt_of_le first (zpow_le_zpow_right₀ (by norm_num) (le_max_left _ _))
  · exact lt_of_lt_of_le second (zpow_le_zpow_right₀ (by norm_num) (le_max_right _ _))

/-- What is left of a difference in the window of its operands. -/
def windowDifference (x d : ℚ) : ℚ :=
  truncateAt 10 (largerExponent x d - 18) x - truncateAt 10 (largerExponent x d - 18) d

theorem windowDifference_isMultiple (x d : ℚ) :
    IsMultiple 10 (largerExponent x d - 18) (windowDifference x d) :=
  (isMultiple_truncateAt _ _).sub (isMultiple_truncateAt _ _)

theorem windowDifference_neg (x d : ℚ) : windowDifference (-x) (-d) = -windowDifference x d := by
  have window : largerExponent (-x) (-d) = largerExponent x d := by
    simp only [largerExponent, neg_eq_zero, exponent_neg]
  rw [windowDifference, windowDifference, window, truncateAt_neg, truncateAt_neg]
  ring

/-- The window loses less than its operands have. -/
theorem abs_windowDifference_lt {x d : ℚ} (same : 0 < x * d) :
    |windowDifference x d| < 10 ^ largerExponent x d := by
  have ofPos : ∀ x d : ℚ, 0 < x → 0 < d → |windowDifference x d| < 10 ^ largerExponent x d := by
    intro x d xPos dPos
    obtain ⟨xBound, dBound⟩ := largerExponent_bounds xPos.ne' dPos.ne'
    rw [abs_of_pos xPos] at xBound
    rw [abs_of_pos dPos] at dBound
    obtain ⟨xLeast, xMost⟩ :=
      (truncateAt_toward (b := 10) (by decide) (largerExponent x d - 18) x).1 xPos.le
    obtain ⟨dLeast, dMost⟩ :=
      (truncateAt_toward (b := 10) (by decide) (largerExponent x d - 18) d).1 dPos.le
    rw [windowDifference, abs_lt]
    constructor <;> linarith
  rcases mul_pos_iff.mp same with ⟨xPos, dPos⟩ | ⟨xNeg, dNeg⟩
  · exact ofPos x d xPos dPos
  · have mirrored := ofPos (-x) (-d) (neg_pos.mpr xNeg) (neg_pos.mpr dNeg)
    have window : largerExponent (-x) (-d) = largerExponent x d := by
      simp only [largerExponent, neg_eq_zero, exponent_neg]
    rwa [windowDifference_neg, abs_neg, window] at mirrored

/-- Subtracting the truncated product leaves what the window of both keeps. -/
theorem alignedSum_difference {x d : ℚ} (same : 0 < x * d) :
    alignedSum x (-truncateTo 10 18 d) = windowDifference x d := by
  have xNonzero : x ≠ 0 := left_ne_zero_of_mul same.ne'
  have dNonzero : d ≠ 0 := right_ne_zero_of_mul same.ne'
  obtain ⟨kept, exponents⟩ := exponent_truncateTo (b := 10) (n := 18) (by decide) (by decide) dNonzero
  have window : largerExponent x (-truncateTo 10 18 d) = largerExponent x d := by
    rw [largerExponent_eq xNonzero (neg_ne_zero.mpr kept), largerExponent_eq xNonzero dNonzero, exponent_neg,
      exponents]
  have lower : exponent 10 d - (18 : ℕ) ≤ largerExponent x d - 18 := by
    rw [largerExponent_eq xNonzero dNonzero]
    have := le_max_right (exponent 10 x) (exponent 10 d)
    push_cast
    omega
  have cut : truncateAt 10 (largerExponent x d - 18) (truncateTo 10 18 d) =
      truncateAt 10 (largerExponent x d - 18) d := truncateAt_truncateAt (by decide) lower d
  rw [alignedSum, window, truncateAt_neg, cut, ← sub_eq_add_neg]
  apply (windowDifference_isMultiple x d).truncateTo_eq (by decide)
  rw [Nat.cast_ofNat, Nat.cast_ofNat, Int.sub_add_cancel]
  exact abs_windowDifference_lt same

/-- A difference without digits below the window is kept. -/
theorem windowDifference_eq {x d : ℚ} (same : 0 < x * d)
    (multiple : IsMultiple 10 (largerExponent x d - 18) (x - d)) : windowDifference x d = x - d := by
  rcases mul_pos_iff.mp same with ⟨xPos, dPos⟩ | ⟨xNeg, dNeg⟩
  · exact truncateAt_sub (by decide) xPos.le dPos.le multiple
  · have opposite : IsMultiple 10 (largerExponent x d - 18) (-x - -d) := by
      have mirrored := multiple.neg
      rwa [show -(x - d) = -x - -d by ring] at mirrored
    have mirrored := truncateAt_sub (by decide) (neg_nonneg.mpr xNeg.le) (neg_nonneg.mpr dNeg.le) opposite
    rw [truncateAt_neg, truncateAt_neg] at mirrored
    rw [windowDifference]
    linarith

/-- A smaller subtrahend leaves zero or the sign of the minuend. -/
theorem windowDifference_sign {x d : ℚ} (same : 0 < x * d) (smaller : |d| ≤ |x|) :
    0 ≤ x * windowDifference x d := by
  have ofPos : ∀ x d : ℚ, 0 < d → d ≤ x → 0 ≤ windowDifference x d := by
    intro x d dPos below
    exact sub_nonneg.mpr (truncateAt_mono (by decide) _ dPos.le below)
  rcases mul_pos_iff.mp same with ⟨xPos, dPos⟩ | ⟨xNeg, dNeg⟩
  · rw [abs_of_pos xPos, abs_of_pos dPos] at smaller
    exact mul_nonneg xPos.le (ofPos x d dPos smaller)
  · rw [abs_of_neg xNeg, abs_of_neg dNeg] at smaller
    have mirrored := ofPos (-x) (-d) (neg_pos.mpr dNeg) smaller
    rw [windowDifference_neg] at mirrored
    exact mul_nonneg_of_nonpos_of_nonpos xNeg.le (by linarith)

/-! ## The found floor -/

section Floors

variable {x y : ℚ}

/-- A dividend and a multiple of the divisor by a floor other than zero have one
sign. -/
theorem product_sign {k : ℤ} (nonzero : y ≠ 0) (agree : 0 < x / y * k) : 0 < x * (k * y) := by
  have square := mul_self_pos.mpr nonzero
  have product : x * (k * y) = x / y * k * (y * y) := by
    field_simp
  rw [product]
  exact mul_pos agree square

/-- The floor of a quotient that is not negative is found. -/
theorem floor_kept (nonneg : 0 ≤ x / y) (small : |x / y| < 10 ^ 17) :
    ⌊truncateTo 10 18 (x / y)⌋ = ⌊x / y⌋ := by
  by_cases zero : x / y = 0
  · rw [zero, truncateTo_zero]
  · apply floor_truncateTo (by decide) nonneg
    have fits : exponent 10 (x / y) ≤ 17 :=
      exponent_le (by decide) zero (by rw [Nat.cast_ofNat]; exact_mod_cast small)
    push_cast
    omega

/-- The floor of a negative quotient is found, or a whole number between the
quotient and zero. -/
theorem floor_missed (negative : x / y < 0) (missed : ⌊truncateTo 10 18 (x / y)⌋ ≠ ⌊x / y⌋) :
    x / y < ⌊truncateTo 10 18 (x / y)⌋ ∧ ⌊truncateTo 10 18 (x / y)⌋ < 0 := by
  have below := truncateTo_neg_iff.mpr negative
  obtain ⟨least, _⟩ :=
    (truncateAt_toward (b := 10) (by decide) (exponent 10 (x / y) - (18 : ℕ)) (x / y)).2 negative.le
  have order : ⌊x / y⌋ ≤ ⌊truncateTo 10 18 (x / y)⌋ := Int.floor_le_floor least
  have next : ⌊x / y⌋ + 1 ≤ ⌊truncateTo 10 18 (x / y)⌋ := by omega
  constructor
  · calc x / y < ⌊x / y⌋ + 1 := Int.lt_floor_add_one _
      _ ≤ ⌊truncateTo 10 18 (x / y)⌋ := by exact_mod_cast next
  · rw [Int.floor_lt]
    exact_mod_cast below

end Floors

/-! ## When the result is right -/

/-- The exact modulus survives: the truncated quotient has the floor of the exact
one, the product does not overflow, and the modulus has no digit below the window of
the subtraction and does not underflow. -/
structure ModulusKept (x y : ℚ) : Prop where
  floor : ⌊truncateTo 10 18 (x / y)⌋ = ⌊x / y⌋
  product : exponent 10 (⌊x / y⌋ * y) + MV_XBIAS < EXPHI
  window : IsMultiple 10 (largerExponent x (⌊x / y⌋ * y) - 18) (modulus x y)
  range : modulus x y = 0 ∨ (EXPLO : Int) ≤ exponent 10 (modulus x y) + MV_XBIAS

/-- The modulus has more than eighteen digits, and the dividend reaches the digits of
the divisor. -/
structure ModulusLong (x y : ℚ) : Prop where
  long : truncateTo 10 18 (modulus x y) ≠ modulus x y
  reaches : (10 : ℚ) ^ (exponent 10 y - 18) ≤ |x|

section Cases

variable {x y : ℚ} {outcome : Except RtsError Mval}

/-- Only the sum of a small negative dividend and its divisor has more than eighteen
digits. -/
theorem long_modulus (xForm : HasForm x) (yForm : HasForm y) (nonzero : y ≠ 0)
    (long : truncateTo 10 18 (modulus x y) ≠ modulus x y) (floor : ⌊x / y⌋ ≠ 0) :
    x / y < 0 ∧ ⌊x / y⌋ = -1 ∧ exponent 10 x < exponent 10 y := by
  have narrow : exponent 10 x < exponent 10 y := by
    by_contra wide
    exact long (modulus_short xForm yForm nonzero (not_lt.mp wide))
  have smaller : |x / y| < 1 := by
    rw [abs_div, div_lt_one (abs_pos.mpr nonzero)]
    by_contra larger
    exact absurd (exponent_mono (b := 10) (by decide) nonzero (not_lt.mp larger)) (not_le.mpr narrow)
  rw [abs_lt] at smaller
  have negative : x / y < 0 := by
    by_contra nonneg
    exact floor (Int.floor_eq_zero_iff.mpr ⟨not_lt.mp nonneg, smaller.2⟩)
  refine ⟨negative, ?_, narrow⟩
  rw [Int.floor_eq_iff]
  push_cast
  constructor <;> linarith

/-- A floor of zero leaves the dividend. -/
theorem kept_of_zero (xForm : HasForm x) (small : |x / y| < 10 ^ 17) (floor : ⌊x / y⌋ = 0) :
    modulus x y = x ∧ ModulusKept x y := by
  obtain ⟨nonneg, _⟩ := Int.floor_eq_zero_iff.mp floor
  have same : modulus x y = x := by rw [modulus, floor, Int.cast_zero, zero_mul, sub_zero]
  refine ⟨same, floor_kept nonneg small, ?_, ?_, ?_⟩
  · rw [floor, Int.cast_zero, zero_mul]
    exact exponent_zero_lt
  · rw [same, floor, Int.cast_zero, zero_mul]
    have window : largerExponent x 0 = exponent 10 x := by
      by_cases zero : x = 0
      · rw [zero, largerExponent, if_pos rfl]
      · rw [largerExponent, if_neg zero, if_pos rfl]
    rw [window]
    exact xForm.isMultiple
  · rw [same]
    by_cases zero : x = 0
    · exact .inl zero
    · exact .inr (xForm.exponent_range zero).1

/-- With a floor of minus one, a kept modulus needs a dividend that reaches the digits
of the divisor. -/
theorem ModulusKept.reaches (kept : ModulusKept x y) (xNonzero : x ≠ 0) (yForm : HasForm y)
    (nonzero : y ≠ 0) (floor : ⌊x / y⌋ = -1) (narrow : exponent 10 x ≤ exponent 10 y) :
    (10 : ℚ) ^ (exponent 10 y - 18) ≤ |x| := by
  have window := kept.window
  have opposite : ((⌊x / y⌋ : ℤ) : ℚ) * y = -y := by
    rw [floor, Int.cast_neg, Int.cast_one, neg_one_mul]
  have modulusEq : modulus x y = x - -y := by rw [modulus, opposite]
  rw [modulusEq, opposite, largerExponent_eq xNonzero (neg_ne_zero.mpr nonzero), exponent_neg,
    max_eq_right narrow] at window
  have digits : IsMultiple 10 (exponent 10 y - 18) x := by
    have sum := window.sub yForm.isMultiple
    rwa [sub_neg_eq_add, add_sub_cancel_right] at sum
  have reached := digits.unit_le (by decide) xNonzero
  rwa [Nat.cast_ofNat] at reached

/-- A quotient that vanishes although its floor is minus one gives a dividend of the
wrong sign. -/
theorem vanished_wrong (result : ModOutcome x y outcome) (yForm : HasForm y) (nonzero : y ≠ 0)
    (floor : ⌊x / y⌋ ≠ 0) (vanishes : exponent 10 (x / y) + MV_XBIAS < EXPLO) :
    ¬ (∃ r, outcome = .ok r ∧ IsModulo x y r.value) ∧ ¬ ModulusKept x y ∧ ¬ ModulusLong x y := by
  have quotient : x / y ≠ 0 := by
    intro zero
    rw [zero, Int.floor_zero] at floor
    exact floor rfl
  have xNonzero : x ≠ 0 := (div_ne_zero_iff.mp quotient).1
  have tiny : |x / y| < 10 ^ (-42 : ℤ) := by
    have bound := (exponent_bounds (b := 10) (by decide) quotient).2
    rw [Nat.cast_ofNat] at bound
    apply lt_of_lt_of_le bound
    simp only [MV_XBIAS, EXPLO] at vanishes
    exact zpow_le_zpow_right₀ (by norm_num) (by omega)
  have smaller : |x / y| < 1 := lt_trans tiny (by norm_num)
  have lost : |x| < 10 ^ (exponent 10 y - 18) := by
    have bound := (exponent_bounds (b := 10) (by decide) nonzero).2
    rw [Nat.cast_ofNat] at bound
    rw [abs_div, div_lt_iff₀ (abs_pos.mpr nonzero)] at tiny
    calc |x| < 10 ^ (-42 : ℤ) * |y| := tiny
      _ ≤ 10 ^ (-42 : ℤ) * 10 ^ exponent 10 y := by
          apply mul_le_mul_of_nonneg_left bound.le
          positivity
      _ = 10 ^ (-42 + exponent 10 y) := by rw [← zpow_add₀ (by norm_num)]
      _ ≤ 10 ^ (exponent 10 y - 18) := zpow_le_zpow_right₀ (by norm_num) (by omega)
  rw [abs_lt] at smaller
  have negative : x / y < 0 := by
    by_contra nonneg
    exact floor (Int.floor_eq_zero_iff.mpr ⟨not_lt.mp nonneg, smaller.2⟩)
  refine ⟨?_, ?_, fun long => absurd long.reaches (not_le.mpr lost)⟩
  · rintro ⟨r, returned, right⟩
    obtain ⟨found, same, value⟩ := result.whole (if_pos vanishes)
    rw [returned] at same
    obtain rfl := Except.ok.inj same
    have opposite := div_neg_iff.mp negative
    rcases right.sign with zero | positive
    · exact xNonzero (value.symm.trans zero)
    · rw [value] at positive
      rcases opposite with ⟨xPos, yNeg⟩ | ⟨xNeg, yPos⟩
      · exact absurd positive (not_lt.mpr (mul_nonpos_of_nonneg_of_nonpos xPos.le yNeg.le))
      · exact absurd positive (not_lt.mpr (mul_nonpos_of_nonpos_of_nonneg xNeg.le yPos.le))
  · intro kept
    have minusOne : ⌊x / y⌋ = -1 := by
      rw [Int.floor_eq_iff]
      push_cast
      constructor <;> linarith
    have narrow : exponent 10 x ≤ exponent 10 y := by
      apply exponent_mono (by decide) xNonzero
      rw [← div_le_one (abs_pos.mpr nonzero), ← abs_div]
      exact (abs_lt.mpr smaller).le
    exact absurd (kept.reaches xNonzero yForm nonzero minusOne narrow) (not_le.mpr lost)

/-- Below the overflow, the number itself is returned, or zero. -/
theorem Delivers.returned {q : ℚ} (delivers : Delivers q outcome)
    (below : exponent 10 q + MV_XBIAS < EXPHI) :
    ∃ r, outcome = .ok r ∧ r.value = if exponent 10 q + MV_XBIAS < EXPLO then 0 else q := by
  by_cases gone : q = 0 ∨ exponent 10 q + MV_XBIAS < EXPLO
  · obtain ⟨r, same, isInt, digits⟩ := delivers.vanished gone
    refine ⟨r, same, ?_⟩
    rw [isInt.value_eq_zero.mpr digits]
    split
    · rfl
    · rename_i stays
      exact (gone.resolve_right stays).symm
  · rw [not_or] at gone
    obtain ⟨r, same, _, value⟩ := delivers.number gone.1 (not_lt.mp gone.2) below
    exact ⟨r, same, by rw [if_neg gone.2, value]⟩

/-- Differences in the window do not overflow. -/
theorem windowDifference_range {d : ℚ} (same : 0 < x * d) (xForm : HasForm x)
    (product : exponent 10 d + MV_XBIAS < EXPHI) :
    exponent 10 (windowDifference x d) + MV_XBIAS < EXPHI := by
  have xNonzero : x ≠ 0 := left_ne_zero_of_mul same.ne'
  have dNonzero : d ≠ 0 := right_ne_zero_of_mul same.ne'
  by_cases zero : windowDifference x d = 0
  · rw [zero]
    exact exponent_zero_lt
  · have bound := exponent_le (b := 10) (by decide) zero
      (by rw [Nat.cast_ofNat]; exact abs_windowDifference_lt same)
    have first := (xForm.exponent_range xNonzero).2
    rw [largerExponent_eq xNonzero dNonzero] at bound
    omega

/-- A floor that is missed gives a result of the wrong sign, or zero. -/
theorem missed_wrong (result : ModOutcome x y outcome) (xForm : HasForm x) (yForm : HasForm y)
    (nonzero : y ≠ 0) (small : |x / y| < 10 ^ 17)
    (stays : ¬ exponent 10 (x / y) + MV_XBIAS < EXPLO)
    (missed : ⌊truncateTo 10 18 (x / y)⌋ ≠ ⌊x / y⌋) :
    ¬ (∃ r, outcome = .ok r ∧ IsModulo x y r.value) ∧ ¬ ModulusKept x y ∧ ¬ ModulusLong x y := by
  have negative : x / y < 0 := by
    by_contra nonneg
    exact missed (floor_kept (not_lt.mp nonneg) small)
  obtain ⟨above, below⟩ := floor_missed negative missed
  have found : foundFloor x y = ⌊truncateTo 10 18 (x / y)⌋ := if_neg stays
  rw [← found] at above below
  obtain ⟨k, floor⟩ : ∃ k, foundFloor x y = k := ⟨_, rfl⟩
  obtain ⟨_, overflow, difference⟩ := result
  rw [floor] at above below overflow difference
  have kNonzero : k ≠ 0 := by omega
  have kNegative : (k : ℚ) < 0 := by exact_mod_cast below
  have same : 0 < x * (k * y) := product_sign nonzero (mul_pos_of_neg_of_neg negative kNegative)
  have smaller : |(k : ℚ) * y| ≤ |x| := by
    rw [abs_mul, ← le_div_iff₀ (abs_pos.mpr nonzero), ← abs_div, abs_of_neg kNegative, abs_of_neg negative]
    linarith
  have short := modulus_short xForm yForm nonzero
    (exponent_mono (by decide) nonzero (le_trans (abs_le_mul_int kNonzero y) smaller))
  -- The quotient is not whole, or it would not have been truncated.
  have fractional : modulus x y ≠ 0 := by
    intro zero
    have whole : x / y = ⌊x / y⌋ := by
      rw [div_eq_iff nonzero]
      exact sub_eq_zero.mp zero
    apply missed
    have exactly : truncateTo 10 18 (x / y) = x / y := by
      apply IsMultiple.truncateTo_eq (k := 0) (by decide)
      · exact ⟨⌊x / y⌋, by rw [zpow_zero, mul_one]; exact whole⟩
      · calc |x / y| < 10 ^ 17 := small
          _ ≤ _ := by norm_num
    rw [exactly]
  refine ⟨?_, fun kept => missed kept.floor, fun long => long.long short⟩
  rintro ⟨r, returned, right⟩
  by_cases overflows : (EXPHI : Int) ≤ exponent 10 ((k : ℚ) * y) + MV_XBIAS
  · rw [overflow kNonzero overflows] at returned
    cases returned
  · have delivers := difference kNonzero (not_le.mp overflows)
    rw [alignedSum_difference same] at delivers
    obtain ⟨found, equal, value⟩ :=
      delivers.returned (windowDifference_range same xForm (not_le.mp overflows))
    rw [returned] at equal
    obtain rfl := Except.ok.inj equal
    have exact := right.exact short
    rcases right.sign with zero | positive
    · exact fractional (exact.symm.trans zero)
    · have sign := windowDifference_sign same smaller
      have kept : r.value = windowDifference x (k * y) := by
        rw [value]
        split
        · rename_i gone
          rw [if_pos gone] at value
          exact absurd (exact.symm.trans value) fractional
        · rfl
      rw [← kept] at sign
      have opposite : x * y < 0 := by
        rw [mul_neg_iff]
        exact div_neg_iff.mp negative
      have product : x * y * (r.value * y) = x * r.value * (y * y) := by ring
      have below := mul_neg_of_neg_of_pos opposite positive
      rw [product] at below
      exact absurd below (not_lt.mpr (mul_nonneg sign (mul_self_nonneg y)))

/-- A modulus without digits below the window has eighteen digits. -/
theorem ModulusKept.short (kept : ModulusKept x y) (nonzero : y ≠ 0) (same : 0 < x * (⌊x / y⌋ * y)) :
    truncateTo 10 18 (modulus x y) = modulus x y := by
  have product : (⌊x / y⌋ : ℚ) * y ≠ 0 := right_ne_zero_of_mul same.ne'
  have floor : ⌊x / y⌋ ≠ 0 := by exact_mod_cast left_ne_zero_of_mul product
  apply kept.window.truncateTo_eq (by decide)
  rw [Nat.cast_ofNat, Nat.cast_ofNat, Int.sub_add_cancel]
  calc |modulus x y| < |y| := abs_modulus_lt nonzero
    _ ≤ |⌊x / y⌋ * y| := abs_le_mul_int floor y
    _ < 10 ^ largerExponent x (⌊x / y⌋ * y) :=
        (largerExponent_bounds (left_ne_zero_of_mul same.ne') product).2

/-- With the right floor, a modulus of eighteen digits is returned exactly when the
window keeps it. -/
theorem short_iff (xForm : HasForm x) (nonzero : y ≠ 0) (same : 0 < x * (⌊x / y⌋ * y))
    (floor : ⌊truncateTo 10 18 (x / y)⌋ = ⌊x / y⌋)
    (product : exponent 10 (⌊x / y⌋ * y) + MV_XBIAS < EXPHI)
    (short : truncateTo 10 18 (modulus x y) = modulus x y)
    (delivers : Delivers (windowDifference x (⌊x / y⌋ * y)) outcome) :
    (∃ r, outcome = .ok r ∧ IsModulo x y r.value) ↔ ModulusKept x y := by
  obtain ⟨r, returned, value⟩ := delivers.returned (windowDifference_range same xForm product)
  constructor
  · rintro ⟨found, equal, right⟩
    rw [returned] at equal
    obtain rfl := Except.ok.inj equal
    have exact := right.exact short
    rw [value] at exact
    split at exact
    · refine ⟨floor, product, ?_, .inl exact.symm⟩
      rw [← exact]
      exact ⟨0, by simp⟩
    · rename_i stays
      refine ⟨floor, product, ?_, ?_⟩
      · rw [← exact]
        exact windowDifference_isMultiple _ _
      · right
        rw [← exact]
        exact not_lt.mp stays
  · intro kept
    have window : windowDifference x (⌊x / y⌋ * y) = modulus x y := windowDifference_eq same kept.window
    rw [window] at value
    have exactly : r.value = modulus x y := by
      rw [value]
      split
      · rename_i gone
        rcases kept.range with zero | above
        · exact zero.symm
        · exact absurd gone (not_lt.mpr above)
      · rfl
    refine ⟨r, returned, ?_⟩
    rw [exactly]
    exact modulus_isModulo nonzero

/-- A longer modulus is approximated by a value below the divisor exactly when the
dividend reaches the digits of the divisor. -/
theorem long_iff (xForm : HasForm x) (yForm : HasForm y) (nonzero : y ≠ 0)
    (negative : x / y < 0) (floor : ⌊x / y⌋ = -1) (narrow : exponent 10 x < exponent 10 y)
    (long : truncateTo 10 18 (modulus x y) ≠ modulus x y)
    (delivers : Delivers (windowDifference x (⌊x / y⌋ * y)) outcome) :
    (∃ r, outcome = .ok r ∧ IsModulo x y r.value) ↔ ModulusLong x y := by
  have opposite : ((⌊x / y⌋ : ℤ) : ℚ) * y = -y := by
    rw [floor, Int.cast_neg, Int.cast_one, neg_one_mul]
  have same : 0 < x * (⌊x / y⌋ * y) := by
    apply product_sign nonzero
    rw [floor, Int.cast_neg, Int.cast_one]
    linarith
  have xNonzero : x ≠ 0 := left_ne_zero_of_mul same.ne'
  have product : exponent 10 (⌊x / y⌋ * y) + MV_XBIAS < EXPHI := by
    rw [opposite, exponent_neg]
    exact (yForm.exponent_range nonzero).2
  obtain ⟨r, returned, value⟩ := delivers.returned (windowDifference_range same xForm product)
  have window : windowDifference x (⌊x / y⌋ * y) = truncateAt 10 (exponent 10 y - 18) x + y := by
    rw [opposite, windowDifference, largerExponent_eq xNonzero (neg_ne_zero.mpr nonzero), exponent_neg,
      max_eq_right narrow.le, truncateAt_neg, yForm.isMultiple.truncateAt_eq (by decide), sub_neg_eq_add]
  rw [window] at value
  have cut := truncateAt_eq_zero_iff (b := 10) (by decide) (exponent 10 y - 18) x
  rw [Nat.cast_ofNat] at cut
  have less : |x| < |y| := by
    by_contra larger
    exact absurd (exponent_mono (b := 10) (by decide) nonzero (not_lt.mp larger)) (not_le.mpr narrow)
  obtain ⟨ofPos, ofNeg⟩ := truncateAt_toward (b := 10) (by decide) (exponent 10 y - 18) x
  generalize truncateAt 10 (exponent 10 y - 18) x = part at *
  -- What is left of the dividend is closer to zero than the divisor, on its other side.
  have bounds : (part ≠ 0 → |part + y| < |y|) ∧ 0 < (part + y) * y := by
    rcases div_neg_iff.mp negative with ⟨xPos, yNeg⟩ | ⟨xNeg, yPos⟩
    · obtain ⟨least, most⟩ := ofPos xPos.le
      rw [abs_of_pos xPos, abs_of_neg yNeg] at less
      constructor
      · intro kept
        have positive := lt_of_le_of_ne least kept.symm
        rw [abs_of_neg (by linarith), abs_of_neg yNeg]
        linarith
      · exact mul_pos_of_neg_of_neg (by linarith) yNeg
    · obtain ⟨least, most⟩ := ofNeg xNeg.le
      rw [abs_of_neg xNeg, abs_of_pos yPos] at less
      constructor
      · intro kept
        have below := lt_of_le_of_ne most kept
        rw [abs_of_pos (by linarith), abs_of_pos yPos]
        linarith
      · exact mul_pos (by linarith) yPos
  constructor
  · rintro ⟨found, equal, right⟩
    rw [returned] at equal
    obtain rfl := Except.ok.inj equal
    refine ⟨long, ?_⟩
    by_contra lost
    have range := (yForm.exponent_range nonzero).1
    rw [cut.mpr (not_le.mp lost), zero_add, if_neg (not_lt.mpr range)] at value
    have small := right.small
    rw [value] at small
    exact absurd small (lt_irrefl _)
  · intro reaches
    refine ⟨r, returned, ?_, ?_, fun short => absurd short long⟩
    · rw [value]
      split
      · exact .inl rfl
      · exact .inr bounds.2
    · rw [value]
      split
      · rw [abs_zero]
        exact abs_pos.mpr nonzero
      · apply bounds.1
        intro zero
        exact absurd (cut.mp zero) (not_lt.mpr reaches.reaches)

/-- Operands not both in `MV_INT` form. -/
theorem ModOutcome.right_iff (result : ModOutcome x y outcome) (xForm : HasForm x) (yForm : HasForm y)
    (nonzero : y ≠ 0) (small : |x / y| < 10 ^ 17) :
    (∃ r, outcome = .ok r ∧ IsModulo x y r.value) ↔ ModulusKept x y ∨ ModulusLong x y := by
  by_cases zero : ⌊x / y⌋ = 0
  · obtain ⟨same, kept⟩ := kept_of_zero xForm small zero
    have found : foundFloor x y = 0 := by
      rw [foundFloor, kept.floor, zero, ite_self]
    obtain ⟨r, returned, value⟩ := result.whole found
    refine iff_of_true ⟨r, returned, ?_⟩ (.inl kept)
    rw [value]
    nth_rewrite 2 [← same]
    exact modulus_isModulo nonzero
  · by_cases vanishes : exponent 10 (x / y) + MV_XBIAS < EXPLO
    · obtain ⟨wrong, notKept, notLong⟩ := vanished_wrong result yForm nonzero zero vanishes
      exact iff_of_false wrong (not_or.mpr ⟨notKept, notLong⟩)
    · by_cases floor : ⌊truncateTo 10 18 (x / y)⌋ = ⌊x / y⌋
      · have found : foundFloor x y = ⌊x / y⌋ := by rw [foundFloor, if_neg vanishes, floor]
        obtain ⟨_, overflow, difference⟩ := result
        rw [found] at overflow difference
        by_cases product : exponent 10 (⌊x / y⌋ * y) + MV_XBIAS < EXPHI
        · have agree : 0 < x / y * ⌊x / y⌋ := by
            rcases lt_or_gt_of_ne zero with below | above
            · have negative : x / y < 0 := Int.floor_lt.mp below |>.trans_le (by simp)
              exact mul_pos_of_neg_of_neg negative (by exact_mod_cast below)
            · have positive : (0 : ℚ) < ⌊x / y⌋ := by exact_mod_cast above
              exact mul_pos (lt_of_lt_of_le positive (Int.floor_le _)) positive
          have same := product_sign nonzero agree
          have delivers := difference zero product
          rw [alignedSum_difference same] at delivers
          by_cases short : truncateTo 10 18 (modulus x y) = modulus x y
          · rw [short_iff xForm nonzero same floor product short delivers]
            exact (or_iff_left fun long => long.long short).symm
          · obtain ⟨negative, minusOne, narrow⟩ := long_modulus xForm yForm nonzero short zero
            rw [long_iff xForm yForm nonzero negative minusOne narrow short delivers]
            exact (or_iff_right fun kept => short (kept.short nonzero same)).symm
        · apply iff_of_false
          · rintro ⟨r, returned, _⟩
            rw [overflow zero (not_lt.mp product)] at returned
            cases returned
          · rintro (kept | long)
            · exact product kept.product
            · obtain ⟨_, minusOne, _⟩ := long_modulus xForm yForm nonzero long.long zero
              rw [minusOne, Int.cast_neg, Int.cast_one, neg_one_mul, exponent_neg] at product
              exact product (yForm.exponent_range nonzero).2
      · obtain ⟨wrong, notKept, notLong⟩ := missed_wrong result xForm yForm nonzero small vanishes floor
        exact iff_of_false wrong (not_or.mpr ⟨notKept, notLong⟩)

end Cases

/-! ## Integers -/

/-- A whole number and a rest with the sign and below the size of the divisor. -/
theorem floor_of_rest {a b k : ℤ} (nonzero : b ≠ 0)
    (rest : (0 ≤ a - k * b ∧ a - k * b < b) ∨ (a - k * b ≤ 0 ∧ b < a - k * b)) :
    ⌊(a : ℚ) / b⌋ = k := by
  have exact : (a : ℚ) / b = k + ((a - k * b : ℤ) : ℚ) / b := by
    have : (b : ℚ) ≠ 0 := by exact_mod_cast nonzero
    push_cast
    field_simp
    ring
  rw [exact, Int.floor_intCast_add, add_eq_left, Int.floor_eq_zero_iff]
  rcases rest with ⟨least, most⟩ | ⟨most, least⟩
  · have positive : (0 : ℚ) < b := by exact_mod_cast lt_of_le_of_lt least most
    constructor
    · exact div_nonneg (by exact_mod_cast least) positive.le
    · exact (div_lt_one positive).mpr (by exact_mod_cast most)
  · have negative : (b : ℚ) < 0 := by exact_mod_cast lt_of_lt_of_le least most
    constructor
    · exact div_nonneg_of_nonpos (by exact_mod_cast most) negative.le
    · exact (div_lt_one_of_neg negative).mpr (by exact_mod_cast least)

/-- The integer modulus rounds the quotient down. -/
theorem eb_int_mod_eq (v1 u1 : Int) (nonzero : u1 ≠ 0) :
    (eb_int_mod v1 u1 : ℚ) = v1 - ⌊(v1 : ℚ) / u1⌋ * u1 := by
  by_cases zero : v1 = 0
  · rw [eb_int_mod, if_pos (.inr zero), zero]
    simp
  · have parts := Int.mul_tdiv_add_tmod v1 u1
    have size : (v1.tmod u1).natAbs < u1.natAbs := by
      rw [Int.natAbs_tmod]
      exact Nat.mod_lt _ (Int.natAbs_pos.mpr nonzero)
    have sign : (0 < v1 → 0 ≤ v1.tmod u1) ∧ (v1 < 0 → v1.tmod u1 ≤ 0) := by
      constructor
      · exact fun above => Int.tmod_nonneg _ above.le
      · intro below
        have mirrored := Int.tmod_nonneg u1 (neg_nonneg.mpr below.le)
        rw [Int.neg_tmod] at mirrored
        omega
    have whole : v1 ≠ v1.tdiv u1 * u1 ↔ v1.tmod u1 ≠ 0 := by
      rw [mul_comm]
      omega
    have floor : ⌊(v1 : ℚ) / u1⌋ = v1.tdiv u1 -
        if ((v1 < 0 ∧ 0 < u1) ∨ (0 < v1 ∧ u1 < 0)) ∧ v1 ≠ v1.tdiv u1 * u1 then 1 else 0 := by
      apply floor_of_rest nonzero
      have left : v1 - v1.tdiv u1 * u1 = v1.tmod u1 := by
        rw [mul_comm]
        omega
      rw [sub_mul, ← sub_add, left]
      simp only [whole]
      split
      · rw [one_mul]
        omega
      · rw [zero_mul, add_zero]
        omega
    rw [eb_int_mod, if_neg (not_or.mpr ⟨nonzero, zero⟩), floor]
    dsimp only
    push_cast
    ring

theorem int_modulus {u v : Mval} (uInt : u.IsInt) (vInt : v.IsInt) (nonzero : v.value ≠ 0) :
    ((eb_int_mod u.m1 v.m1 : Int) : ℚ) / MV_BIAS = modulus u.value v.value := by
  have digits : v.m1 ≠ 0 := fun zero => nonzero (vInt.value_eq_zero.mpr zero)
  have scale : (MV_BIAS : ℚ) ≠ 0 := by norm_num [MV_BIAS]
  have quotient : u.value / v.value = (u.m1 : ℚ) / v.m1 := by
    rw [Mval.value, Mval.value, uInt.int, vInt.int, if_pos rfl, if_pos rfl, div_div_div_cancel_right₀ scale]
  rw [eb_int_mod_eq _ _ digits, modulus, quotient, Mval.value, Mval.value, uInt.int, vInt.int, if_pos rfl,
    if_pos rfl]
  ring

/-! ## The routine -/

/-- The modulus of canonical numbers whose quotient has fewer than eighteen digits
before its point. The result is zero or has the sign of the divisor, is smaller than
the divisor, and is the exact modulus where that has eighteen digits, if and only if
both are integers, or the exact modulus survives the truncations, or it has more than
eighteen digits and the dividend reaches the digits of the divisor. -/
theorem modulo_is_right_iff (eb_int_mul eb_mvint_div : Int → Int → Option Int) (tg : ThreadGbl)
    {u v : Mval} (uCanonical : u.Canonical) (vCanonical : v.Canonical)
    (uNotNull : u.mvtype.sqlnull = false) (vNotNull : v.mvtype.sqlnull = false)
    (vNonzero : v.value ≠ 0) (small : |u.value / v.value| < 10 ^ 17) (w q : Mval) :
    (∃ r, flt_mod eb_int_mul eb_mvint_div tg u v w q = some (.ok r) ∧
      IsModulo u.value v.value r.value) ↔
      (u.mvtype.int && v.mvtype.int) = true ∨ ModulusKept u.value v.value ∨
        ModulusLong u.value v.value := by
  by_cases ints : (u.mvtype.int && v.mvtype.int) = true
  · refine iff_of_true ?_ (.inl ints)
    obtain ⟨uInt, vInt⟩ : u.IsInt ∧ v.IsInt := by
      rw [Bool.and_eq_true] at ints
      constructor
      · exact uCanonical.resolve_right fun float =>
          absurd (float.1.int.symm.trans ints.1) Bool.false_ne_true
      · exact vCanonical.resolve_right fun float =>
          absurd (float.1.int.symm.trans ints.2) Bool.false_ne_true
    have divisor : ¬ (v.mvtype.int && decide (v.m1 = 0)) = true := by
      rw [Bool.and_eq_true, decide_eq_true_eq]
      rintro ⟨_, m1⟩
      exact vNonzero (vInt.value_eq_zero.mpr m1)
    refine ⟨{ q with mvtype := mvNmInt, m1 := eb_int_mod u.m1 v.m1 }, ?_, ?_⟩
    · simp only [flt_mod, uNotNull, vNotNull, Bool.or_self, Bool.false_eq_true, if_false,
        mvForceNum_of_canonical tg uCanonical uNotNull, mvForceNum_of_canonical tg vCanonical vNotNull,
        if_neg divisor, ints, if_true]
    · have value : Mval.value { q with mvtype := mvNmInt, m1 := eb_int_mod u.m1 v.m1 } =
          modulus u.value v.value := int_modulus uInt vInt vNonzero
      rw [value]
      exact modulus_isModulo vNonzero
  · obtain ⟨outcome, returned, result⟩ := flt_mod_mixed eb_int_mul eb_mvint_div tg uCanonical vCanonical
      uNotNull vNotNull vNonzero small (by simpa using ints) w q
    rw [or_iff_right ints, ← result.right_iff uCanonical.hasForm vCanonical.hasForm vNonzero small, returned]
    simp only [Option.some.injEq]

/-- The modulus of -7.0005 by 2.0001 is 0.9999: the floor of the quotient is -4, one below
the integer part. -/
theorem modulo_is_right_iff_floor : ∃ u v r : Mval,
    u = ⟨mvNm, true, 63, 0, 700050000, []⟩ ∧ v = ⟨mvNm, false, 63, 0, 200010000, []⟩ ∧
    r = ⟨mvNm, false, 62, 0, 999900000, [Ascii.zero]⟩ ∧
    flt_mod (fun _ _ => none) (fun _ _ => none) ⟨false, false⟩ u v literal_zero literal_zero =
      some (.ok r) ∧
    IsModulo u.value v.value r.value ∧
    ((u.mvtype.int && v.mvtype.int) = true ∨ ModulusKept u.value v.value ∨
      ModulusLong u.value v.value) := by
  have first : Mval.IsFloat ⟨mvNm, true, 63, 0, 700050000, []⟩ := by
    constructor <;> decide
  have second : Mval.IsFloat ⟨mvNm, false, 63, 0, 200010000, []⟩ := by
    constructor <;> decide
  have dividend : Mval.value ⟨mvNm, true, 63, 0, 700050000, []⟩ = -7.0005 := by
    norm_num [mvNm, Mval.value, signFactor, MANT_HI, MV_XBIAS]
  have divisor : Mval.value ⟨mvNm, false, 63, 0, 200010000, []⟩ = 2.0001 := by
    norm_num [mvNm, Mval.value, signFactor, MANT_HI, MV_XBIAS]
  have result : Mval.value ⟨mvNm, false, 62, 0, 999900000, [Ascii.zero]⟩ = 0.9999 := by
    norm_num [mvNm, Mval.value, signFactor, MANT_HI, MV_XBIAS]
  have floor : ⌊(-7.0005 : ℚ) / 2.0001⌋ = -4 := by
    rw [Int.floor_eq_iff]
    norm_num
  have right : IsModulo (-7.0005) 2.0001 0.9999 := by
    have exact : modulus (-7.0005) 2.0001 = 0.9999 := by
      rw [modulus, floor]
      norm_num
    rw [← exact]
    exact modulus_isModulo (by norm_num)
  rw [← dividend, ← divisor, ← result] at right
  refine ⟨_, _, _, rfl, rfl, rfl, rfl, right, ?_⟩
  apply (modulo_is_right_iff (fun _ _ => none) (fun _ _ => none) ⟨false, false⟩
    (first.canonical 14 rfl (by decide)) (second.canonical 14 rfl (by decide)) rfl rfl ?_ ?_
    literal_zero literal_zero).mp ⟨_, rfl, right⟩
  · rw [divisor]
    norm_num
  · rw [dividend, divisor, abs_lt]
    norm_num

/-- -9.0000000000000001 -/
def belowMinusNine : Mval := ⟨mvNm, true, 63, 10, 900000000, []⟩
/-- 1.00000000000000001 -/
def aboveOne : Mval := ⟨mvNm, false, 63, 1, 100000000, []⟩

/-- The quotient is below minus nine by less than its eighteen digits show. The exact
modulus is one, and the result is negative. -/
theorem modulo_of_the_wrong_sign :
    belowMinusNine.Canonical ∧ aboveOne.Canonical ∧
      |belowMinusNine.value / aboveOne.value| < 10 ^ 17 ∧
      modulus belowMinusNine.value aboveOne.value = 1 ∧
      truncateTo 10 18 (modulus belowMinusNine.value aboveOne.value) =
        modulus belowMinusNine.value aboveOne.value ∧
      flt_mod (fun _ _ => none) (fun _ _ => none) ⟨false, false⟩ belowMinusNine aboveOne literal_zero
        literal_zero = some (.ok ⟨mvNm, true, 46, 0, 100000000, [Ascii.zero]⟩) ∧
      ¬ IsModulo belowMinusNine.value aboveOne.value
        (Mval.value ⟨mvNm, true, 46, 0, 100000000, [Ascii.zero]⟩) := by
  have dividend : belowMinusNine.value = -9.0000000000000001 := by
    norm_num [belowMinusNine, mvNm, Mval.value, signFactor, MANT_HI, MV_XBIAS]
  have divisor : aboveOne.value = 1.00000000000000001 := by
    norm_num [aboveOne, mvNm, Mval.value, signFactor, MANT_HI, MV_XBIAS]
  have result : Mval.value ⟨mvNm, true, 46, 0, 100000000, [Ascii.zero]⟩ = -1 / 10 ^ 17 := by
    norm_num [mvNm, Mval.value, signFactor, MANT_HI, MV_XBIAS]
  have floor : ⌊belowMinusNine.value / aboveOne.value⌋ = -10 := by
    rw [dividend, divisor, Int.floor_eq_iff]
    norm_num
  have exact : modulus belowMinusNine.value aboveOne.value = 1 := by
    rw [modulus, floor, dividend, divisor]
    norm_num
  have short : truncateTo 10 18 (1 : ℚ) = 1 := by
    have whole := truncateTo_short (m := 1) 0 (by decide)
    rwa [Nat.cast_one, zpow_zero, mul_one] at whole
  refine ⟨?_, ?_, ?_, exact, by rw [exact, short], rfl, ?_⟩
  · have isFloat : belowMinusNine.IsFloat := by
      constructor <;> decide
    exact isFloat.canonical 14 rfl (by decide)
  · have isFloat : aboveOne.IsFloat := by
      constructor <;> decide
    exact isFloat.canonical 14 rfl (by decide)
  · rw [dividend, divisor, abs_lt]
    norm_num
  · intro right
    have wrong := right.exact (by rw [exact, short])
    rw [exact, result] at wrong
    norm_num at wrong

end Ydb
