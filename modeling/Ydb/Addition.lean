import Ydb.NumericResults
import Ydb.NumberComparison

/-!
# Addition and subtraction

`add_mvals` brings both operands to eighteen digits with one exponent, dropping
the digits of the smaller that fall below the window of the larger, adds or
subtracts the two words with carry or borrow, and normalises. `op_add` and
`op_sub` add two `MV_INT` values directly. All three compute one operation on
rationals: truncate both operands at the window of the larger, add exactly, and
truncate the sum to eighteen significant digits.
-/

namespace Ydb

open Lib

/-! ## The routines -/

/-- Multiply by ten until nine digits are reached, counting the steps. -/
def scaleUp : Nat → Nat → Nat → Nat × Nat
  | 0, m1, count => (m1, count)
  | rounds + 1, m1, count =>
    if m1 < MANT_LO then scaleUp rounds (m1 * 10) (count + 1) else (m1, count)

/-- An operand as the routine unpacks it. -/
structure Addend where
  sign : Bool
  exp : Int
  m1 : Nat
  m0 : Nat
deriving DecidableEq, Repr

/-- Unpack an operand, with its sign reversed for a subtraction. Integer zero has
no digits to work on. -/
def unpack (v : Mval) (subtraction : Bool) : Option Addend :=
  if v.mvtype.int = false then some ⟨v.sgn ^^ subtraction, v.e, v.m1.toNat, v.m0.toNat⟩
  else if v.m1 = 0 then none
  else
    let scaled := scaleUp NUM_DEC_DG_1L v.m1.natAbs 0
    some ⟨decide (v.m1 < 0) ^^ subtraction, EXP_INT_OVERF - 1 - scaled.2, scaled.1, 0⟩

/-- Shift two words to the right by fewer than eighteen digits. -/
def shiftDown (delta n1 n0 : Nat) : Nat × Nat :=
  if NUM_DEC_DG_1L ≤ delta then (0, n1 / ten_pwr (delta - NUM_DEC_DG_1L))
  else if 0 < delta then
    let factor := ten_pwr delta
    let high := n1 / factor
    (high, (n1 - high * factor) * ten_pwr (NUM_DEC_DG_1L - delta) + n0 / factor)
  else (n1, n0)

/-- Add the words with their carries. -/
def addWords (exp : Int) (m1 m0 n1 n0 : Nat) : Int × Nat × Nat :=
  let m0 := m0 + n0
  let (m1, m0) := if MANT_HI ≤ m0 then (m1 + 1, m0 - MANT_HI) else (m1, m0)
  let m1 := m1 + n1
  if MANT_HI ≤ m1 then
    let x := m1 / 10
    (exp + 1, x, m0 / 10 + (m1 - x * 10) * MANT_LO)
  else (exp, m1, m0)

/-- Bring a nonzero high word back to nine digits, filling it from the low word. -/
def renormalise (exp : Int) (m1 m0 : Nat) : Int × Nat × Nat :=
  if m1 < MANT_LO then
    let scaled := scaleUp NUM_DEC_DG_1L m1 0
    let delta := scaled.2
    let factor := ten_pwr (NUM_DEC_DG_1L - delta)
    let x := m0 / factor
    (exp - delta, scaled.1 + x, (m0 - x * factor) * ten_pwr delta)
  else (exp, m1, m0)

/-- Subtract the words, the first pair not below the second, and normalise the
difference. A difference of zero has no such form. -/
def subtractWords (exp : Int) (m1 m0 n1 n0 : Int) : Option (Int × Nat × Nat) :=
  let m0 := m0 - n0
  let (m1, m0) := if m0 < 0 then (m1 - 1, m0 + MANT_HI) else (m1, m0)
  let m1 := m1 - n1
  let (exp, m1, m0) := if m1 = 0 then (exp - NUM_DEC_DG_1L, m0, 0) else (exp, m1, m0)
  if m1 = 0 then none
  else
    let (exp, m1) := if m1 < 0 then (exp - 1, m1 + MANT_HI) else (exp, m1)
    some (renormalise exp m1.toNat m0.toNat)

/-- The mark of a result in float form. -/
def mvNm : MvType := ⟨true, false, false, false, false⟩
/-- The mark of a result in `MV_INT` form. -/
def mvNmInt : MvType := ⟨true, true, false, false, false⟩

/-- Store a sum in its numeric form. -/
def storeSum (result : Mval) (rsign : Bool) (exp : Int) (m1 m0 : Nat) : Except RtsError Mval :=
  if demotable exp m1 m0 then
    let x : Int := (m1 / ten_pwr (EXP_INT_OVERF - 1 - exp).toNat : Nat)
    .ok { result with mvtype := mvNmInt, m1 := if rsign then -x else x }
  else if EXPHI ≤ exp then .error .numoflow
  else if exp < EXPLO then .ok literal_zero
  else .ok { result with mvtype := mvNm, sgn := rsign, e := exp.toNat, m0 := m0, m1 := m1 }

/-- `MV_FORCE_CANONICAL` on a value with valid numeric fields. -/
def mvForceCanonical (v : Mval) : Mval :=
  if v.mvtype.numApprox then
    { v with mvtype := ⟨v.mvtype.nm, v.mvtype.int, false, false, false⟩ }
  else v

/-- The result is the first operand. -/
def resultIsU (u : Mval) : Mval := mvForceCanonical u

/-- The result is the second operand, negated for a subtraction. -/
def resultIsV (v : Mval) (subtraction : Bool) (result : Mval) : Mval :=
  if subtraction then
    if v.mvtype.int then { result with mvtype := mvNmInt, m1 := -v.m1 }
    else { result with mvtype := mvNm, sgn := !v.sgn, e := v.e, m0 := v.m0, m1 := v.m1 }
  else mvForceCanonical v

/-- Add or subtract aligned words, by the signs. `swapped` says that the second
pair is the larger. -/
def combineWords (result : Mval) (swapped : Bool) (usign vsign : Bool) (exp : Int)
    (m1 m0 n1 n0 : Nat) : Except RtsError Mval :=
  if usign = vsign then
    let (exp, m1, m0) := addWords exp m1 m0 n1 n0
    storeSum result usign exp m1 m0
  else
    let difference :=
      if swapped then subtractWords exp n1 n0 m1 m0 else subtractWords exp m1 m0 n1 n0
    match difference with
    | none => .ok { result with mvtype := mvNmInt, m1 := 0 }
    | some (exp, m1, m0) => storeSum result (if swapped then vsign else usign) exp m1 m0

/-- Add or subtract by magnitudes, with shifted words. -/
def add_mvals (u v : Mval) (subtraction : Bool) (result : Mval) : Except RtsError Mval :=
  match unpack u false with
  | none => .ok (resultIsV v subtraction result)
  | some a =>
    match unpack v subtraction with
    | none => .ok (resultIsU u)
    | some c =>
      let delta := a.exp - c.exp
      if 0 ≤ delta then
        if NUM_DEC_DG_2L ≤ delta then .ok (resultIsU u)
        else
          let (n1, n0) := shiftDown delta.toNat c.m1 c.m0
          let swapped := delta = 0 ∧ (a.m1 < n1 ∨ (a.m1 = n1 ∧ a.m0 < n0))
          combineWords result swapped a.sign c.sign a.exp a.m1 a.m0 n1 n0
      else if delta ≤ -NUM_DEC_DG_2L then .ok (resultIsV v subtraction result)
      else
        let (m1, m0) := shiftDown (-delta).toNat a.m1 a.m0
        combineWords result true a.sign c.sign c.exp m1 m0 c.m1 c.m0

/-- Store the sum of two `MV_INT` values; one digit too many makes it a float. -/
def storeIntSum (s : Mval) (m1 : Int) : Mval :=
  if m1 < MANT_HI ∧ -(MANT_HI : Int) < m1 then { s with mvtype := mvNmInt, m1 := m1 }
  else
    let magnitude := m1.natAbs
    let m0 := magnitude / 10
    { s with
      mvtype := mvNm
      sgn := !decide (0 < m1)
      e := EXP_INT_OVERF
      m0 := ((magnitude - m0 * 10) * MANT_LO : Nat)
      m1 := m0 }

/-- The common body of `op_add` and `op_sub`. -/
def addOrSubtract (tg : ThreadGbl) (subtraction : Bool) (u v s : Mval) : Except RtsError Mval :=
  if u.mvtype.sqlnull || v.mvtype.sqlnull then .ok literalSqlnull
  else do
    let u ← mvForceNum tg u
    let v ← mvForceNum tg v
    if u.mvtype.int && v.mvtype.int then
      return storeIntSum s (if subtraction then u.m1 - v.m1 else u.m1 + v.m1)
    else add_mvals u v subtraction s

/-- $A + B. -/
def op_add (tg : ThreadGbl) (u v s : Mval) : Except RtsError Mval := addOrSubtract tg false u v s

/-- $A - B. -/
def op_sub (tg : ThreadGbl) (u v s : Mval) : Except RtsError Mval := addOrSubtract tg true u v s

/-! ## The operation on rationals -/

theorem truncateAt_signed (k : ℤ) (sgn : Bool) (q : ℚ) :
    truncateAt 10 k (signFactor sgn * q) = signFactor sgn * truncateAt 10 k q := by
  cases sgn
  · rw [signFactor, one_mul, one_mul]
  · rw [signFactor, neg_one_mul, neg_one_mul, truncateAt_neg]

theorem truncateTo_signed (n : ℕ) (sgn : Bool) (q : ℚ) :
    truncateTo 10 n (signFactor sgn * q) = signFactor sgn * truncateTo 10 n q := by
  cases sgn
  · rw [signFactor, one_mul, one_mul]
  · rw [signFactor, neg_one_mul, neg_one_mul, truncateTo_neg]

/-- The exponent of the larger operand. -/
def largerExponent (x y : ℚ) : ℤ :=
  if x = 0 then exponent 10 y else if y = 0 then exponent 10 x
  else max (exponent 10 x) (exponent 10 y)

/-- Drop what lies below the eighteen digits of the larger operand, add, and keep
eighteen digits. -/
def alignedSum (x y : ℚ) : ℚ :=
  truncateTo 10 18
    (truncateAt 10 (largerExponent x y - 18) x + truncateAt 10 (largerExponent x y - 18) y)

theorem largerExponent_comm (x y : ℚ) : largerExponent x y = largerExponent y x := by
  unfold largerExponent
  split_ifs with xZero yZero
  · rw [xZero, yZero]
  · rfl
  · rfl
  · exact max_comm _ _

theorem alignedSum_comm (x y : ℚ) : alignedSum x y = alignedSum y x := by
  rw [alignedSum, alignedSum, largerExponent_comm, add_comm]

/-- Digits that fall inside the window are all kept. -/
theorem alignedSum_exact {x y : ℚ}
    (xInside : truncateAt 10 (largerExponent x y - 18) x = x)
    (yInside : truncateAt 10 (largerExponent x y - 18) y = y)
    (short : truncateTo 10 18 (x + y) = x + y) : alignedSum x y = x + y := by
  rw [alignedSum, xInside, yInside, short]

/-! ## Decimals in a window -/

/-- A decimal keeps its quotient by the power of ten it is shifted by. -/
theorem truncateAt_decimal (d : Decimal) (delta : ℕ) :
    truncateAt 10 (d.exp + delta - 18) d.value =
      signFactor d.neg * ((d.mant / 10 ^ delta : ℕ) * (10 : ℚ) ^ (d.exp + delta - 18)) := by
  have unit : (10 : ℚ) ^ (d.exp + delta - 18) = 10 ^ delta * 10 ^ (d.exp - 18) := by
    rw [← zpow_natCast, ← zpow_add₀ (by norm_num)]
    congr 1
    ring
  have small : (0 : ℚ) < 10 ^ (d.exp - 18) := zpow_pos (by norm_num) _
  have below : d.mant / 10 ^ delta * 10 ^ delta ≤ d.mant := Nat.div_mul_le_self _ _
  have above : d.mant < (d.mant / 10 ^ delta + 1) * 10 ^ delta := by
    rw [Nat.mul_comm]
    exact Nat.lt_mul_div_succ _ (Nat.pow_pos (by decide))
  rw [Decimal.value, truncateAt_signed]
  congr 1
  apply truncateAt_of_bounds (by decide)
  · rw [Nat.cast_ofNat, unit, ← mul_assoc]
    exact mul_le_mul_of_nonneg_right (by exact_mod_cast below) small.le
  · rw [Nat.cast_ofNat, unit, ← mul_assoc]
    exact mul_lt_mul_of_pos_right (by exact_mod_cast above) small

/-- The aligned sum of two decimals, the first with the larger exponent. -/
theorem alignedSum_decimals (c d : Decimal) (delta : ℕ) (apart : c.exp = d.exp + delta) :
    alignedSum c.value d.value =
      truncateTo 10 18 (signFactor c.neg * (c.mant * (10 : ℚ) ^ (c.exp - 18)) +
        signFactor d.neg * ((d.mant / 10 ^ delta : ℕ) * (10 : ℚ) ^ (c.exp - 18))) := by
  have window : largerExponent c.value d.value = c.exp := by
    rw [largerExponent, if_neg c.value_ne_zero, if_neg d.value_ne_zero, c.exponent_value,
      d.exponent_value]
    omega
  have first := truncateAt_decimal c 0
  rw [Nat.cast_zero, add_zero, pow_zero, Nat.div_one] at first
  rw [alignedSum, window, first, apart, truncateAt_decimal]

theorem alignedSum_zero_left (d : Decimal) : alignedSum 0 d.value = d.value := by
  have whole := truncateAt_decimal d 0
  rw [Nat.cast_zero, add_zero, pow_zero, Nat.div_one] at whole
  rw [alignedSum, truncateAt_zero, zero_add, largerExponent, if_pos rfl, d.exponent_value, whole,
    truncateTo_signed, truncateTo_short _ d.hi]
  rfl

/-! ## Words -/

/-- Scaling stops at nine digits, before the rounds run out. -/
theorem scaleUp_eq {m n : Nat} (rounds count : Nat) (some : 1 ≤ n) (narrow : n ≤ 9)
    (lo : 10 ^ (n - 1) ≤ m) (hi : m < 10 ^ n) (enough : 9 - n ≤ rounds) :
    scaleUp rounds m count = (m * 10 ^ (9 - n), count + (9 - n)) := by
  induction rounds generalizing m n count with
  | zero =>
    have full : n = 9 := by omega
    rw [scaleUp, full, Nat.sub_self, pow_zero, mul_one, add_zero]
  | succ rounds ih =>
    rw [scaleUp]
    by_cases full : n = 9
    · rw [full] at lo
      have long : ¬ m < MANT_LO := not_lt.mpr lo
      rw [if_neg long, full, Nat.sub_self, pow_zero, mul_one, add_zero]
    · have short : m < MANT_LO := by
        calc m < 10 ^ n := hi
          _ ≤ 10 ^ 8 := Nat.pow_le_pow_right (by decide) (by omega)
      have grown : 10 ^ (n + 1 - 1) ≤ m * 10 := by
        calc 10 ^ (n + 1 - 1) = 10 ^ (n - 1) * 10 := by rw [← Nat.pow_succ]; congr 1; omega
          _ ≤ m * 10 := Nat.mul_le_mul_right _ lo
      have bounded : m * 10 < 10 ^ (n + 1) := by
        rw [Nat.pow_succ]
        exact Nat.mul_lt_mul_of_pos_right hi (by decide)
      rw [if_pos short, ih (count + 1) (by omega) (by omega) grown bounded
        (by omega), mul_assoc, ← Nat.pow_succ', show (9 - (n + 1)).succ = 9 - n by omega,
        show count + 1 + (9 - (n + 1)) = count + (9 - n) by omega]

/-- Any nonzero word reaches nine digits. -/
theorem scaleUp_spec {m : Nat} (positive : 0 < m) (small : m < MANT_HI) :
    ∃ k, k ≤ 8 ∧ scaleUp NUM_DEC_DG_1L m 0 = (m * 10 ^ k, k) ∧ MANT_LO ≤ m * 10 ^ k ∧
      m * 10 ^ k < MANT_HI := by
  obtain ⟨n, some, narrow, lo, hi⟩ := exists_width m positive small
  refine ⟨9 - n, by omega, ?_, ?_, ?_⟩
  · rw [scaleUp_eq NUM_DEC_DG_1L 0 some narrow lo hi (by simp [NUM_DEC_DG_1L]), zero_add]
  · calc MANT_LO = 10 ^ (n - 1) * 10 ^ (9 - n) := by
          rw [← Nat.pow_add, show n - 1 + (9 - n) = 8 by omega]
          rfl
      _ ≤ m * 10 ^ (9 - n) := Nat.mul_le_mul_right _ lo
  · calc m * 10 ^ (9 - n) < 10 ^ n * 10 ^ (9 - n) :=
          Nat.mul_lt_mul_of_pos_right hi (Nat.pow_pos (by decide))
      _ = MANT_HI := by
          rw [← Nat.pow_add, show n + (9 - n) = 9 by omega]
          rfl

/-- Shifting the words divides the eighteen digits. -/
theorem shiftDown_eq {delta n0 : Nat} (n1 : Nat) (near : delta < 18) (low : n0 < 10 ^ 9) :
    (shiftDown delta n1 n0).1 * 10 ^ 9 + (shiftDown delta n1 n0).2 =
        (n1 * 10 ^ 9 + n0) / 10 ^ delta ∧
      (n1 < 10 ^ 9 → (shiftDown delta n1 n0).2 < 10 ^ 9) := by
  by_cases far : NUM_DEC_DG_1L ≤ delta
  · obtain ⟨rest, rfl⟩ := Nat.exists_eq_add_of_le far
    rw [shiftDown, if_pos far, Nat.add_sub_cancel_left,
      ten_pwr_eq rest (by simp only [NUM_DEC_DG_1L] at near; omega), zero_mul, zero_add,
      Nat.pow_add, ← Nat.div_div_eq_div_mul]
    constructor
    · rw [show (n1 * 10 ^ 9 + n0) / 10 ^ NUM_DEC_DG_1L = n1 by simp only [NUM_DEC_DG_1L]; omega]
    · intro high
      exact lt_of_le_of_lt (Nat.div_le_self _ _) high
  · rw [shiftDown, if_neg far]
    simp only [NUM_DEC_DG_1L] at far
    by_cases moved : 0 < delta
    · rw [if_pos moved, ten_pwr_eq delta (by omega)]
      simp only [NUM_DEC_DG_1L]
      rw [ten_pwr_eq (9 - delta) (by omega)]
      -- The nine digits of the low word split where the high word's remainder enters.
      have width : (10 : Nat) ^ 9 = 10 ^ (9 - delta) * 10 ^ delta := by
        rw [← Nat.pow_add]
        congr 1
        omega
      have factorPos : 0 < 10 ^ delta := Nat.pow_pos (by decide)
      have remainder : n1 - n1 / 10 ^ delta * 10 ^ delta = n1 % 10 ^ delta := by
        rw [Nat.mod_eq_sub_div_mul]
      have split := Nat.div_add_mod n1 (10 ^ delta)
      rw [remainder]
      generalize 10 ^ delta = factor at *
      generalize 10 ^ (9 - delta) = scale at *
      constructor
      · have regrouped : n1 * 10 ^ 9 + n0 =
            factor * (n1 / factor * 10 ^ 9 + n1 % factor * scale) + n0 := by
          nth_rewrite 1 [← split]
          rw [width]
          ring
        rw [regrouped, Nat.mul_add_div factorPos]
        ring
      · intro _
        have fits : n0 / factor < scale := by
          rw [Nat.div_lt_iff_lt_mul factorPos, ← width]
          exact low
        have part : n1 % factor + 1 ≤ factor := Nat.mod_lt _ factorPos
        calc n1 % factor * scale + n0 / factor < n1 % factor * scale + scale := by omega
          _ = (n1 % factor + 1) * scale := by ring
          _ ≤ factor * scale := Nat.mul_le_mul_right _ part
          _ = 10 ^ 9 := by rw [width, Nat.mul_comm]
    · rw [if_neg moved, show delta = 0 by omega, pow_zero, Nat.div_one]
      exact ⟨rfl, fun _ => low⟩

/-- Nine digits in the high word and at most nine in the low one. -/
structure NormalWords (m1 m0 : Nat) : Prop where
  lo : MANT_LO ≤ m1
  hi : m1 < MANT_HI
  low : m0 < MANT_HI

theorem normalWords_of_digits {m1 m0 : Nat} (low : m0 < 10 ^ 9) (lo : 10 ^ 17 ≤ m1 * 10 ^ 9 + m0)
    (hi : m1 * 10 ^ 9 + m0 < 10 ^ 18) : NormalWords m1 m0 := by
  constructor
  · simp only [MANT_LO]
    omega
  · simp only [MANT_HI]
    omega
  · exact low

/-- The sum of the words, shortened by one digit if it has nineteen. -/
theorem addWords_spec (exp : Int) {m1 m0 n1 n0 : Nat} (mHigh : m1 < 10 ^ 9) (mLow : m0 < 10 ^ 9)
    (nHigh : n1 < 10 ^ 9) (nLow : n0 < 10 ^ 9)
    (wide : 10 ^ 17 ≤ m1 * 10 ^ 9 + m0 + (n1 * 10 ^ 9 + n0)) :
    ∃ exp' r1 r0, addWords exp m1 m0 n1 n0 = (exp', r1, r0) ∧ NormalWords r1 r0 ∧
      ((exp' = exp ∧ r1 * 10 ^ 9 + r0 = m1 * 10 ^ 9 + m0 + (n1 * 10 ^ 9 + n0)) ∨
        (exp' = exp + 1 ∧
          r1 * 10 ^ 9 + r0 = (m1 * 10 ^ 9 + m0 + (n1 * 10 ^ 9 + n0)) / 10)) := by
  obtain ⟨k1, k0, carried, same, low⟩ : ∃ k1 k0,
      (if MANT_HI ≤ m0 + n0 then (m1 + 1, m0 + n0 - MANT_HI) else (m1, m0 + n0)) = (k1, k0) ∧
        k1 * 10 ^ 9 + k0 = m1 * 10 ^ 9 + m0 + n0 ∧ k0 < 10 ^ 9 := by
    by_cases carry : MANT_HI ≤ m0 + n0
    · refine ⟨_, _, if_pos carry, ?_⟩
      simp only [MANT_HI] at carry ⊢
      omega
    · refine ⟨_, _, if_neg carry, ?_⟩
      simp only [MANT_HI] at carry
      omega
  have total : m1 * 10 ^ 9 + m0 + (n1 * 10 ^ 9 + n0) = (k1 + n1) * 10 ^ 9 + k0 := by linarith
  have bounded : k1 + n1 < 2 * 10 ^ 9 := by omega
  rw [total] at wide ⊢
  by_cases large : MANT_HI ≤ k1 + n1
  · refine ⟨exp + 1, (k1 + n1) / 10, k0 / 10 + (k1 + n1 - (k1 + n1) / 10 * 10) * MANT_LO, ?_, ?_,
      .inr ⟨rfl, ?_⟩⟩
    · simp only [addWords, carried]
      rw [if_pos large]
    · clear carried same total wide
      simp only [MANT_HI] at large
      have quotient := Nat.div_add_mod (k1 + n1) 10
      rw [show k1 + n1 - (k1 + n1) / 10 * 10 = (k1 + n1) % 10 by omega]
      generalize (k1 + n1) / 10 = q at *
      apply normalWords_of_digits <;> simp only [MANT_LO] <;> omega
    · clear carried same total
      simp only [MANT_LO]
      omega
  · refine ⟨exp, k1 + n1, k0, ?_, ?_, .inl ⟨rfl, rfl⟩⟩
    · simp only [addWords, carried]
      rw [if_neg large]
    · clear carried same total
      simp only [MANT_HI] at large
      apply normalWords_of_digits <;> omega

/-- Renormalising shifts the eighteen digits to the left. -/
theorem renormalise_spec (exp : Int) {m1 m0 : Nat} (positive : 0 < m1) (high : m1 < MANT_HI)
    (low : m0 < MANT_HI) :
    ∃ (shift : Nat) (r1 r0 : Nat), renormalise exp m1 m0 = (exp - shift, r1, r0) ∧
      NormalWords r1 r0 ∧ r1 * 10 ^ 9 + r0 = (m1 * 10 ^ 9 + m0) * 10 ^ shift := by
  by_cases short : m1 < MANT_LO
  · obtain ⟨k, few, scaled, lo, hi⟩ := scaleUp_spec positive high
    have width : (10 : Nat) ^ 9 = 10 ^ (9 - k) * 10 ^ k := by
      rw [← Nat.pow_add]
      congr 1
      omega
    have powers : ten_pwr (NUM_DEC_DG_1L - k) = 10 ^ (9 - k) ∧ ten_pwr k = 10 ^ k := by
      constructor
      · exact ten_pwr_eq _ (by simp [NUM_DEC_DG_1L])
      · exact ten_pwr_eq _ (by omega)
    have remainder : m0 - m0 / 10 ^ (9 - k) * 10 ^ (9 - k) = m0 % 10 ^ (9 - k) := by
      rw [Nat.mod_eq_sub_div_mul]
    have split := Nat.div_add_mod m0 (10 ^ (9 - k))
    have factorPos : 0 < 10 ^ (9 - k) := Nat.pow_pos (by decide)
    have scalePos : 0 < 10 ^ k := Nat.pow_pos (by decide)
    change m1 * 10 ^ k < 10 ^ 9 at hi
    change m0 < 10 ^ 9 at low
    refine ⟨k, m1 * 10 ^ k + m0 / 10 ^ (9 - k), m0 % 10 ^ (9 - k) * 10 ^ k, ?_, ⟨?_, ?_, ?_⟩, ?_⟩
    · rw [renormalise, if_pos short, scaled]
      dsimp only
      rw [powers.1, powers.2, remainder]
    · exact le_trans lo (Nat.le_add_right _ _)
    · -- The shifted high word is a multiple of the power, so there is room behind it.
      rw [width] at hi low
      have room : m1 + 1 ≤ 10 ^ (9 - k) := Nat.lt_of_mul_lt_mul_right hi
      have entering : m0 / 10 ^ (9 - k) < 10 ^ k := by
        rw [Nat.div_lt_iff_lt_mul factorPos, Nat.mul_comm]
        exact low
      change _ < 10 ^ 9
      calc m1 * 10 ^ k + m0 / 10 ^ (9 - k) < m1 * 10 ^ k + 10 ^ k := by omega
        _ = (m1 + 1) * 10 ^ k := by ring
        _ ≤ 10 ^ (9 - k) * 10 ^ k := Nat.mul_le_mul_right _ room
        _ = 10 ^ 9 := width.symm
    · change _ < 10 ^ 9
      rw [width]
      exact Nat.mul_lt_mul_of_pos_right (Nat.mod_lt _ factorPos) scalePos
    · generalize m0 / 10 ^ (9 - k) = x at *
      generalize m0 % 10 ^ (9 - k) = rest at *
      rw [← split, width]
      ring
  · refine ⟨0, m1, m0, ?_, ⟨not_lt.mp short, high, low⟩, by rw [pow_zero, mul_one]⟩
    rw [renormalise, if_neg short, Nat.cast_zero, sub_zero]

/-- The difference of the words, filled with zeros on the right. -/
theorem subtractWords_spec (exp : Int) {m1 m0 n1 n0 : Nat} (mHigh : m1 < 10 ^ 9)
    (mLow : m0 < 10 ^ 9) (nLow : n0 < 10 ^ 9)
    (order : n1 * 10 ^ 9 + n0 ≤ m1 * 10 ^ 9 + m0) :
    (subtractWords exp m1 m0 n1 n0 = none ∧ n1 * 10 ^ 9 + n0 = m1 * 10 ^ 9 + m0) ∨
      ∃ (shift : Nat) (r1 r0 : Nat), subtractWords exp m1 m0 n1 n0 = some (exp - shift, r1, r0) ∧
        NormalWords r1 r0 ∧
        r1 * 10 ^ 9 + r0 = (m1 * 10 ^ 9 + m0 - (n1 * 10 ^ 9 + n0)) * 10 ^ shift := by
  obtain ⟨k1, k0, borrowed, same, low⟩ : ∃ k1 k0 : Nat,
      ((if (m0 : Int) - n0 < 0 then ((m1 : Int) - 1, (m0 : Int) - n0 + MANT_HI)
        else ((m1 : Int), (m0 : Int) - n0)) = (((k1 + n1 : Nat) : Int), (k0 : Int))) ∧
        k1 * 10 ^ 9 + k0 = m1 * 10 ^ 9 + m0 - (n1 * 10 ^ 9 + n0) ∧ k0 < 10 ^ 9 := by
    by_cases borrow : (m0 : Int) - n0 < 0
    · obtain ⟨k1, rfl⟩ := Nat.exists_eq_add_of_lt (by omega : n1 < m1)
      obtain ⟨k0, rest⟩ := Nat.exists_eq_add_of_le (by omega : n0 ≤ m0 + 10 ^ 9)
      refine ⟨k1, k0, ?_, (Nat.sub_eq_of_eq_add (by linarith)).symm, by omega⟩
      rw [if_pos borrow]
      simp only [MANT_HI]
      congr 1 <;> omega
    · obtain ⟨k1, rfl⟩ := Nat.exists_eq_add_of_le (by omega : n1 ≤ m1)
      obtain ⟨k0, rfl⟩ := Nat.exists_eq_add_of_le (by omega : n0 ≤ m0)
      refine ⟨k1, k0, ?_, (Nat.sub_eq_of_eq_add (by linarith)).symm, by omega⟩
      rw [if_neg borrow]
      congr 1 <;> omega
  have high : k1 < MANT_HI := by
    simp only [MANT_HI]
    omega
  rw [← same]
  simp only [subtractWords, borrowed, Nat.cast_add, add_sub_cancel_right]
  by_cases empty : k1 = 0
  · subst empty
    rw [Nat.cast_zero, if_pos rfl]
    dsimp only
    by_cases none : k0 = 0
    · left
      rw [none, Nat.cast_zero, if_pos rfl]
      rw [none] at same
      exact ⟨rfl, Nat.le_antisymm order (Nat.sub_eq_zero_iff_le.mp same.symm)⟩
    · right
      obtain ⟨shift, r1, r0, result, normal, digits⟩ :=
        renormalise_spec (exp - NUM_DEC_DG_1L) (by omega : 0 < k0) low (by decide : 0 < MANT_HI)
      refine ⟨shift + 9, r1, r0, ?_, normal, ?_⟩
      · rw [if_neg (by exact_mod_cast none), if_neg (by omega)]
        dsimp only
        rw [Int.toNat_natCast, Int.toNat_zero, result, Nat.cast_add, sub_sub, add_comm (shift : Int)]
        rfl
      · rw [digits, Nat.pow_add]
        ring
  · right
    obtain ⟨shift, r1, r0, result, normal, digits⟩ :=
      renormalise_spec exp (by omega : 0 < k1) high low
    refine ⟨shift, r1, r0, ?_, normal, digits⟩
    have some : ¬ (k1 : Int) = 0 := by exact_mod_cast empty
    simp only [if_neg some, if_neg (by omega : ¬ (k1 : Int) < 0), Int.toNat_natCast, result]

/-! ## Operands and results -/

theorem NormalWords.of_float {v : Mval} (isFloat : v.IsFloat) :
    NormalWords v.m1.toNat v.m0.toNat := by
  have lo := isFloat.m1_lo
  have hi := isFloat.m1_hi
  have low := And.intro isFloat.m0_lo isFloat.m0_hi
  constructor <;> omega

/-- The decimal of two normalised words. -/
def NormalWords.decimal {m1 m0 : Nat} (normal : NormalWords m1 m0) (sgn : Bool) (exp : Int) :
    Decimal := Decimal.ofWords sgn exp m1 m0 normal.lo normal.hi normal.low

theorem NormalWords.decimal_value {m1 m0 : Nat} (normal : NormalWords m1 m0) (sgn : Bool)
    (exp : Int) : (normal.decimal sgn exp).value =
      signFactor sgn * (((m1 * 10 ^ 9 + m0 : Nat) : ℚ) * 10 ^ (exp - MV_XBIAS - 18)) := rfl

/-- The sign of a subtrahend is reversed. -/
theorem signFactor_xor (sgn subtraction : Bool) (q : ℚ) :
    signFactor (sgn ^^ subtraction) * q =
      if subtraction then -(signFactor sgn * q) else signFactor sgn * q := by
  cases sgn <;> cases subtraction <;> simp [signFactor]

/-- Unpacking loses nothing of a number other than zero. -/
theorem unpack_spec {v : Mval} (form : v.IsInt ∨ v.IsFloat) (subtraction : Bool) :
    (v.value = 0 ∧ v.IsInt ∧ unpack v subtraction = none) ∨
      ∃ (a : Addend) (normal : NormalWords a.m1 a.m0), unpack v subtraction = some a ∧
        (normal.decimal a.sign a.exp).value = if subtraction then -v.value else v.value := by
  rcases form with isInt | isFloat
  · by_cases zero : v.m1 = 0
    · left
      refine ⟨isInt.value_eq_zero.mpr zero, isInt, ?_⟩
      rw [unpack, isInt.int, if_neg (by decide), if_pos zero]
    · right
      obtain ⟨k, few, scaled, lo, hi⟩ := scaleUp_spec (by omega : 0 < v.m1.natAbs) isInt.small
      refine ⟨⟨decide (v.m1 < 0) ^^ subtraction, EXP_INT_OVERF - 1 - k, v.m1.natAbs * 10 ^ k, 0⟩,
        ⟨lo, hi, (by decide : 0 < MANT_HI)⟩, ?_, ?_⟩
      · rw [unpack, isInt.int, if_neg (by decide), if_neg zero, scaled]
      · have scale : (((v.m1.natAbs * 10 ^ k * 10 ^ 9 + 0 : Nat) : ℚ) *
            10 ^ ((EXP_INT_OVERF : Int) - 1 - k - MV_XBIAS - 18)) = v.m1.natAbs / MV_BIAS := by
          have powers : (10 : ℚ) ^ k * 10 ^ 9 * 10 ^ ((EXP_INT_OVERF : Int) - 1 - k - MV_XBIAS - 18) =
              1 / 1000 := by
            rw [← zpow_natCast, ← zpow_natCast, ← zpow_add₀ (by norm_num),
              ← zpow_add₀ (by norm_num), show (k : Int) + ((9 : Nat) : Int) +
                ((EXP_INT_OVERF : Int) - 1 - k - MV_XBIAS - 18) = -3 by
                  simp only [EXP_INT_OVERF, MV_XBIAS]; push_cast; ring]
            norm_num
          rw [Nat.add_zero, Nat.cast_mul, Nat.cast_mul, Nat.cast_pow, Nat.cast_pow, Nat.cast_ofNat,
            mul_assoc, mul_assoc, ← mul_assoc ((10 : ℚ) ^ k), powers, MV_BIAS]
          push_cast
          ring
        rw [NormalWords.decimal_value, scale, signFactor_xor, Mval.value, isInt.int, if_pos rfl]
        have signed : signFactor (decide (v.m1 < 0)) * ((v.m1.natAbs : ℚ) / MV_BIAS) =
            v.m1 / MV_BIAS := by
          rcases lt_or_ge v.m1 0 with negative | nonneg
          · have magnitude : ((v.m1.natAbs : ℕ) : ℚ) = -v.m1 := by
              rw [← Int.cast_natCast, Int.ofNat_natAbs_of_nonpos negative.le, Int.cast_neg]
            rw [decide_eq_true negative, signFactor, magnitude]
            ring
          · have magnitude : ((v.m1.natAbs : ℕ) : ℚ) = v.m1 := by
              rw [← Int.cast_natCast, Int.natAbs_of_nonneg nonneg]
            rw [decide_eq_false (not_lt.mpr nonneg), signFactor, magnitude, one_mul]
        rw [signed]
  · right
    refine ⟨_, NormalWords.of_float isFloat, by rw [unpack, isFloat.int, if_pos rfl], ?_⟩
    rw [NormalWords.decimal_value, signFactor_xor, ← isFloat.toDecimal_value]
    rfl

/-- A stored sum is the canonical form of its words. -/
theorem storeSum_delivers (result : Mval) (rsign : Bool) (exp : Int) {m1 m0 : Nat}
    (normal : NormalWords m1 m0) :
    Delivers (normal.decimal rsign exp).value (storeSum result rsign exp m1 m0) := by
  apply Delivers.of_words
  · intro large
    have notInt : demotable exp m1 m0 = false := by
      rw [Bool.eq_false_iff, ne_eq, demotable_iff]
      simp only [EXPHI] at large
      omega
    rw [storeSum, notInt, if_neg Bool.false_ne_true, if_pos large]
  · intro small
    have notInt : demotable exp m1 m0 = false := by
      rw [Bool.eq_false_iff, ne_eq, demotable_iff]
      simp only [EXPLO] at small
      omega
    have notLarge : ¬ (EXPHI : Int) ≤ exp := by
      simp only [EXPLO, EXPHI] at small ⊢
      omega
    refine ⟨literal_zero, ?_, ⟨rfl, rfl, by decide⟩, rfl⟩
    rw [storeSum, notInt, if_neg Bool.false_ne_true, if_neg notLarge, if_pos small]
  · intro demoted
    refine ⟨_, by rw [storeSum, if_pos demoted], rfl, rfl, rfl⟩
  · intro notInt above below
    refine ⟨_, by rw [storeSum, notInt, if_neg Bool.false_ne_true, if_neg (not_le.mpr below),
      if_neg (not_lt.mpr above)], rfl, rfl, rfl, ?_, rfl, rfl⟩
    have nonneg : 0 ≤ exp := by
      simp only [EXPLO] at above
      omega
    exact Int.toNat_of_nonneg nonneg

/-- The eighteen digits kept of a sum of words. -/
theorem truncateTo_words {m1 m0 total : Nat} (normal : NormalWords m1 m0) (sgn : Bool) {exp exp' : Int}
    (kept : (exp' = exp ∧ m1 * 10 ^ 9 + m0 = total) ∨
      (exp' = exp + 1 ∧ m1 * 10 ^ 9 + m0 = total / 10)) :
    truncateTo 10 18 (signFactor sgn * (total * (10 : ℚ) ^ (exp - MV_XBIAS - 18))) =
      (normal.decimal sgn exp').value := by
  rw [truncateTo_signed, NormalWords.decimal_value]
  congr 1
  have wide : 10 ^ 18 ≤ 10 * (m1 * 10 ^ 9 + m0) := by
    have := (normal.decimal sgn exp).lo
    change 10 ^ 17 ≤ m1 * 10 ^ 9 + m0 at this
    omega
  have narrow : m1 * 10 ^ 9 + m0 < 10 ^ 18 := (normal.decimal sgn exp).hi
  have unit : (0 : ℚ) < 10 ^ (exp - MV_XBIAS - 18) := zpow_pos (by norm_num) _
  rcases kept with ⟨rfl, digits⟩ | ⟨rfl, digits⟩
  · rw [digits] at narrow ⊢
    exact truncateTo_short _ narrow
  · have tenfold : (10 : ℚ) ^ (exp + 1 - MV_XBIAS - 18) = 10 * 10 ^ (exp - MV_XBIAS - 18) := by
      rw [← zpow_one_add₀ (by norm_num)]
      congr 1
      ring
    have below : (m1 * 10 ^ 9 + m0) * 10 ≤ total := by
      rw [digits]
      exact Nat.div_mul_le_self _ _
    have above : total < (m1 * 10 ^ 9 + m0 + 1) * 10 := by
      rw [digits]
      omega
    apply truncateTo_of_bounds (by decide) wide narrow
    · rw [Nat.cast_ofNat, tenfold, ← mul_assoc]
      exact mul_le_mul_of_nonneg_right (by exact_mod_cast below) unit.le
    · rw [Nat.cast_ofNat, tenfold, ← mul_assoc]
      exact mul_lt_mul_of_pos_right (by exact_mod_cast above) unit

/-- Subtracted words deliver their exact difference. -/
theorem subtracted_delivers (result : Mval) (sgn : Bool) (exp : Int) {m1 m0 n1 n0 : Nat}
    (mHigh : m1 < 10 ^ 9) (mLow : m0 < 10 ^ 9) (nLow : n0 < 10 ^ 9)
    (order : n1 * 10 ^ 9 + n0 ≤ m1 * 10 ^ 9 + m0) :
    Delivers (signFactor sgn * (((m1 * 10 ^ 9 + m0 - (n1 * 10 ^ 9 + n0) : Nat) : ℚ) *
        10 ^ (exp - MV_XBIAS - 18)))
      (match subtractWords exp m1 m0 n1 n0 with
        | none => .ok { result with mvtype := mvNmInt, m1 := 0 }
        | some (exp, m1, m0) => storeSum result sgn exp m1 m0) := by
  rcases subtractWords_spec exp mHigh mLow nLow order with
    ⟨none, same⟩ | ⟨shift, r1, r0, found, normal, digits⟩
  · rw [none, same, Nat.sub_self, Nat.cast_zero, zero_mul, mul_zero]
    exact .of_zero rfl ⟨rfl, rfl, (by decide : 0 < MANT_HI)⟩ rfl
  · rw [found]
    have value : (normal.decimal sgn (exp - shift)).value =
        signFactor sgn * (((m1 * 10 ^ 9 + m0 - (n1 * 10 ^ 9 + n0) : Nat) : ℚ) *
          10 ^ (exp - MV_XBIAS - 18)) := by
      have unit : (10 : ℚ) ^ shift * 10 ^ (exp - shift - MV_XBIAS - 18) =
          10 ^ (exp - MV_XBIAS - 18) := by
        rw [← zpow_natCast, ← zpow_add₀ (by norm_num)]
        congr 1
        ring
      rw [NormalWords.decimal_value, digits, Nat.cast_mul, Nat.cast_pow, Nat.cast_ofNat, mul_assoc,
        unit]
    rw [← value]
    exact storeSum_delivers result sgn _ normal

/-- Combined words deliver the signed sum, to eighteen digits. -/
theorem combineWords_delivers (result : Mval) {swapped : Bool} (usign vsign : Bool) (exp : Int)
    {m1 m0 n1 n0 : Nat} (mHigh : m1 < 10 ^ 9) (mLow : m0 < 10 ^ 9) (nHigh : n1 < 10 ^ 9)
    (nLow : n0 < 10 ^ 9) (wide : 10 ^ 17 ≤ m1 * 10 ^ 9 + m0 + (n1 * 10 ^ 9 + n0))
    (order : if swapped then m1 * 10 ^ 9 + m0 ≤ n1 * 10 ^ 9 + n0
      else n1 * 10 ^ 9 + n0 ≤ m1 * 10 ^ 9 + m0) :
    Delivers
      (truncateTo 10 18
        (signFactor usign * ((m1 * 10 ^ 9 + m0 : Nat) * (10 : ℚ) ^ (exp - MV_XBIAS - 18)) +
          signFactor vsign * ((n1 * 10 ^ 9 + n0 : Nat) * (10 : ℚ) ^ (exp - MV_XBIAS - 18))))
      (combineWords result swapped usign vsign exp m1 m0 n1 n0) := by
  by_cases signs : usign = vsign
  · subst signs
    obtain ⟨exp', r1, r0, added, normal, digits⟩ := addWords_spec exp mHigh mLow nHigh nLow wide
    rw [combineWords, if_pos rfl, added, ← mul_add, ← add_mul, ← Nat.cast_add,
      truncateTo_words normal usign digits]
    exact storeSum_delivers result usign exp' normal
  · have opposite : signFactor vsign = -signFactor usign := by
      cases usign <;> cases vsign
      · exact absurd rfl signs
      · rfl
      · exact (neg_neg _).symm
      · exact absurd rfl signs
    rw [combineWords, if_neg signs]
    cases swapped with
    | false =>
      rw [if_neg Bool.false_ne_true] at order
      have short : m1 * 10 ^ 9 + m0 - (n1 * 10 ^ 9 + n0) < 10 ^ 18 := by omega
      rw [opposite, neg_mul, ← sub_eq_add_neg, ← mul_sub, ← sub_mul, ← Nat.cast_sub order,
        truncateTo_signed, truncateTo_short _ short]
      exact subtracted_delivers result usign exp mHigh mLow nLow order
    | true =>
      rw [if_pos rfl] at order
      have short : n1 * 10 ^ 9 + n0 - (m1 * 10 ^ 9 + m0) < 10 ^ 18 := by omega
      rw [← neg_eq_iff_eq_neg.mpr opposite, neg_mul, neg_add_eq_sub, ← mul_sub, ← sub_mul,
        ← Nat.cast_sub order, truncateTo_signed, truncateTo_short _ short]
      exact subtracted_delivers result vsign exp nHigh nLow mLow order

/-! ## The routines compute the aligned sum -/

theorem mvForceCanonical_value (v : Mval) : (mvForceCanonical v).value = v.value := by
  unfold mvForceCanonical
  split <;> rfl

theorem mvForceCanonical_canonical {v : Mval} (canonical : v.Canonical) :
    (mvForceCanonical v).Canonical := by
  by_cases approx : v.mvtype.numApprox = true
  · rw [mvForceCanonical, if_pos approx]
    rcases canonical with isInt | ⟨isFloat, notInt⟩
    · exact .inl ⟨isInt.nm, isInt.int, isInt.small⟩
    · exact .inr ⟨⟨isFloat.nm, isFloat.int, isFloat.m1_lo, isFloat.m1_hi, isFloat.m0_lo,
        isFloat.m0_hi, isFloat.e_lo, isFloat.e_hi⟩, notInt⟩
  · rwa [mvForceCanonical, if_neg approx]

/-- A canonical value delivers its own number. -/
theorem Mval.Canonical.delivers {w : Mval} (canonical : w.Canonical) :
    Delivers w.value (.ok w) := by
  rcases w.form_cases canonical.form with ⟨zero, isInt, digits⟩ | ⟨d, value, inRange⟩
  · rw [zero]
    exact .of_zero rfl isInt digits
  · have exponents := d.exponent_value
    rw [value] at exponents
    constructor
    · intro large
      rw [exponents] at large
      simp only [Decimal.InRange, EXPHI, MV_XBIAS] at inRange large
      omega
    · rintro (zero | small)
      · exact absurd (value.trans zero) d.value_ne_zero
      · rw [exponents] at small
        simp only [Decimal.InRange, EXPLO, MV_XBIAS] at inRange small
        omega
    · exact fun _ _ _ => ⟨w, rfl, canonical, rfl⟩

/-- The second operand with its sign, as a result. -/
theorem resultIsV_canonical {v : Mval} (canonical : v.Canonical) (subtraction : Bool)
    (result : Mval) : (resultIsV v subtraction result).Canonical ∧
      (resultIsV v subtraction result).value = if subtraction then -v.value else v.value := by
  cases subtraction with
  | false => exact ⟨mvForceCanonical_canonical canonical, mvForceCanonical_value v⟩
  | true =>
    rw [resultIsV, if_pos rfl]
    rcases canonical with isInt | ⟨isFloat, notInt⟩
    · rw [isInt.int, if_pos rfl]
      constructor
      · refine .inl ⟨rfl, rfl, ?_⟩
        rw [Int.natAbs_neg]
        exact isInt.small
      · simp [Mval.value, isInt.int, mvNmInt, neg_div]
    · rw [isFloat.int, if_neg Bool.false_ne_true]
      have negated : (Mval.mk mvNm (!v.sgn) v.e v.m0 v.m1 result.str).value = -v.value := by
        simp only [Mval.value, isFloat.int, mvNm, Bool.false_eq_true, if_false]
        cases v.sgn <;> simp only [Bool.not_false, Bool.not_true, signFactor] <;> ring
      refine ⟨.inr ⟨⟨rfl, rfl, isFloat.m1_lo, isFloat.m1_hi, isFloat.m0_lo, isFloat.m0_hi,
        isFloat.e_lo, isFloat.e_hi⟩, ?_⟩, negated⟩
      rintro ⟨m, small, value⟩
      apply notInt
      refine ⟨-m, by rwa [Int.natAbs_neg], ?_⟩
      change (Mval.mk mvNm (!v.sgn) v.e v.m0 v.m1 result.str).value = _ at value
      rw [negated, neg_eq_iff_eq_neg] at value
      rw [value, Int.cast_neg, neg_div]

theorem NormalWords.small {m1 m0 : Nat} (normal : NormalWords m1 m0) :
    10 ^ 17 ≤ m1 * 10 ^ 9 + m0 ∧ m1 * 10 ^ 9 + m0 < 10 ^ 18 ∧ m1 < 10 ^ 9 ∧ m0 < 10 ^ 9 :=
  ⟨(normal.decimal false 0).lo, (normal.decimal false 0).hi, normal.hi, normal.low⟩

/-- Words shifted out of the window leave nothing in it. -/
theorem alignedSum_far (c d : Decimal) (far : d.exp + 18 ≤ c.exp) :
    alignedSum c.value d.value = c.value := by
  obtain ⟨delta, apart⟩ := Int.le.dest (by omega : d.exp ≤ c.exp)
  have gone : d.mant / 10 ^ delta = 0 := by
    apply Nat.div_eq_of_lt
    calc d.mant < 10 ^ 18 := d.hi
      _ ≤ 10 ^ delta := Nat.pow_le_pow_right (by decide) (by omega)
  rw [alignedSum_decimals c d delta apart.symm, gone, Nat.cast_zero, zero_mul, mul_zero, add_zero,
    truncateTo_signed, truncateTo_short _ c.hi]
  rfl

/-- Shifted words and normal words deliver the aligned sum of their decimals; the
normal words come first. -/
theorem shifted_bounds {m1 m0 n1 n0 delta : Nat} (mNormal : NormalWords m1 m0)
    (nNormal : NormalWords n1 n0) (near : delta < 18) :
    (shiftDown delta n1 n0).1 * 10 ^ 9 + (shiftDown delta n1 n0).2 =
        (n1 * 10 ^ 9 + n0) / 10 ^ delta ∧
      (shiftDown delta n1 n0).1 < 10 ^ 9 ∧ (shiftDown delta n1 n0).2 < 10 ^ 9 ∧
      (0 < delta → (n1 * 10 ^ 9 + n0) / 10 ^ delta < m1 * 10 ^ 9 + m0) := by
  obtain ⟨mLo, _, _, _⟩ := mNormal.small
  obtain ⟨_, nHi, nHigh, nLow⟩ := nNormal.small
  obtain ⟨digits, low⟩ := shiftDown_eq n1 near nLow
  have shorter : (n1 * 10 ^ 9 + n0) / 10 ^ delta ≤ n1 * 10 ^ 9 + n0 := Nat.div_le_self _ _
  refine ⟨digits, by omega, low nHigh, ?_⟩
  intro moved
  calc (n1 * 10 ^ 9 + n0) / 10 ^ delta ≤ (n1 * 10 ^ 9 + n0) / 10 ^ 1 :=
        Nat.div_le_div_left (Nat.pow_le_pow_right (by decide) moved) (by decide)
    _ < m1 * 10 ^ 9 + m0 := by omega

/-- `add_mvals` computes the aligned sum. -/
theorem add_mvals_delivers {u v : Mval} (uCanonical : u.Canonical) (vCanonical : v.Canonical)
    (subtraction : Bool) (result : Mval) :
    Delivers (alignedSum u.value (if subtraction then -v.value else v.value))
      (add_mvals u v subtraction result) := by
  obtain ⟨vResult, vValue⟩ := resultIsV_canonical vCanonical subtraction result
  have isV : Delivers (if subtraction then -v.value else v.value)
      (.ok (resultIsV v subtraction result)) := by
    rw [← vValue]
    exact vResult.delivers
  have isU : Delivers u.value (.ok (resultIsU u)) := by
    rw [← mvForceCanonical_value u]
    exact (mvForceCanonical_canonical uCanonical).delivers
  rcases unpack_spec uCanonical.form false with ⟨uZero, _, uNone⟩ | ⟨a, aNormal, uSome, aValue⟩
  · -- The sum of zero and the other operand.
    rw [add_mvals, uNone, uZero]
    rcases unpack_spec vCanonical.form subtraction with ⟨vZero, _, _⟩ | ⟨c, cNormal, _, cValue⟩
    · rw [vZero, neg_zero, ite_self] at isV ⊢
      have none : alignedSum 0 0 = 0 := by simp [alignedSum]
      rw [none]
      exact isV
    · rw [← cValue, alignedSum_zero_left, cValue]
      exact isV
  rw [if_neg Bool.false_ne_true] at aValue
  rcases unpack_spec vCanonical.form subtraction with ⟨vZero, _, vNone⟩ | ⟨c, cNormal, vSome, cValue⟩
  · rw [add_mvals, uSome]
    dsimp only
    rw [vNone, vZero, neg_zero, ite_self, ← aValue, alignedSum_comm, alignedSum_zero_left, aValue]
    exact isU
  rw [add_mvals, uSome]
  dsimp only
  rw [vSome, ← aValue, ← cValue]
  dsimp only
  obtain ⟨aLo, aHi, aHigh, aLow⟩ := aNormal.small
  obtain ⟨cLo, cHi, cHigh, cLow⟩ := cNormal.small
  by_cases above : 0 ≤ a.exp - c.exp
  · obtain ⟨delta, apart⟩ := Int.le.dest (by omega : c.exp ≤ a.exp)
    have gap : a.exp - c.exp = delta := by omega
    rw [if_pos above, gap]
    by_cases far : (NUM_DEC_DG_2L : Int) ≤ delta
    · have beyond : (cNormal.decimal c.sign c.exp).exp + 18 ≤ (aNormal.decimal a.sign a.exp).exp := by
        change c.exp - MV_XBIAS + 18 ≤ a.exp - MV_XBIAS
        simp only [NUM_DEC_DG_2L] at far
        omega
      rw [if_pos far, alignedSum_far _ _ beyond, aValue]
      exact isU
    · have near : delta < 18 := by
        simp only [NUM_DEC_DG_2L] at far
        omega
      obtain ⟨digits, high, low, smaller⟩ := shifted_bounds aNormal cNormal near
      have exps : (aNormal.decimal a.sign a.exp).exp = (cNormal.decimal c.sign c.exp).exp + delta := by
        change a.exp - MV_XBIAS = c.exp - MV_XBIAS + delta
        omega
      rw [if_neg far, Int.toNat_natCast, alignedSum_decimals _ _ delta exps]
      change Delivers (truncateTo 10 18 (signFactor a.sign * (((a.m1 * 10 ^ 9 + a.m0 : Nat) : ℚ) * _) +
        signFactor c.sign * ((((c.m1 * 10 ^ 9 + c.m0) / 10 ^ delta : Nat) : ℚ) * _))) _
      rw [← digits]
      apply combineWords_delivers result a.sign c.sign a.exp aHigh aLow high low
        (le_trans aLo (Nat.le_add_right _ _))
      rw [← digits] at smaller
      by_cases level : delta = 0
      · split <;> rename_i compared
        · have := of_decide_eq_true compared
          omega
        · have := of_decide_eq_false (Bool.eq_false_iff.mpr compared)
          omega
      · rw [if_neg]
        · exact (smaller (by omega)).le
        · intro compared
          have := of_decide_eq_true compared
          omega
  · obtain ⟨delta, apart⟩ := Int.le.dest (by omega : a.exp ≤ c.exp)
    have gap : a.exp - c.exp = -(delta : Int) := by omega
    rw [if_neg above, gap]
    by_cases far : -(delta : Int) ≤ -(NUM_DEC_DG_2L : Int)
    · have beyond : (aNormal.decimal a.sign a.exp).exp + 18 ≤ (cNormal.decimal c.sign c.exp).exp := by
        change a.exp - MV_XBIAS + 18 ≤ c.exp - MV_XBIAS
        simp only [NUM_DEC_DG_2L] at far
        omega
      rw [if_pos far, alignedSum_comm, alignedSum_far _ _ beyond, cValue]
      exact isV
    · have near : delta < 18 := by
        simp only [NUM_DEC_DG_2L] at far
        omega
      obtain ⟨digits, high, low, smaller⟩ := shifted_bounds cNormal aNormal near
      have exps : (cNormal.decimal c.sign c.exp).exp = (aNormal.decimal a.sign a.exp).exp + delta := by
        change c.exp - MV_XBIAS = a.exp - MV_XBIAS + delta
        omega
      rw [if_neg far, neg_neg, Int.toNat_natCast, alignedSum_comm, alignedSum_decimals _ _ delta exps,
        add_comm]
      change Delivers (truncateTo 10 18
        (signFactor a.sign * ((((a.m1 * 10 ^ 9 + a.m0) / 10 ^ delta : Nat) : ℚ) * _) +
          signFactor c.sign * (((c.m1 * 10 ^ 9 + c.m0 : Nat) : ℚ) * _))) _
      rw [← digits]
      rw [← digits] at smaller
      apply combineWords_delivers result a.sign c.sign c.exp high low cHigh cLow
        (le_trans cLo (Nat.le_add_left _ _))
      rw [if_pos rfl]
      exact (smaller (by omega)).le

/-! ## What the aligned sum keeps -/

/-- Zero or a number of eighteen digits. -/
def IsShort (q : ℚ) : Prop := q = 0 ∨ ∃ d : Decimal, d.value = q

theorem Mval.Canonical.isShort {v : Mval} (canonical : v.Canonical) (subtraction : Bool) :
    IsShort (if subtraction then -v.value else v.value) := by
  rcases v.form_cases canonical.form with ⟨zero, _, _⟩ | ⟨d, value, _⟩
  · left
    rw [zero, neg_zero, ite_self]
  · right
    cases subtraction with
    | false => exact ⟨d, value⟩
    | true =>
      refine ⟨⟨!d.neg, d.exp, d.mant, d.lo, d.hi⟩, ?_⟩
      rw [if_pos rfl, ← value, Decimal.value, Decimal.value]
      cases d.neg <;> simp [signFactor]

/-- Reduce a symmetric fact about aligned sums to decimals in the order of their
exponents. -/
theorem short_cases {motive : ℚ → ℚ → Prop} (swap : ∀ x y, motive x y → motive y x)
    (zeros : motive 0 0) (zero : ∀ d : Decimal, motive 0 d.value)
    (both : ∀ (c d : Decimal) (delta : ℕ), c.exp = d.exp + delta → motive c.value d.value)
    {x y : ℚ} (xShort : IsShort x) (yShort : IsShort y) : motive x y := by
  rcases xShort with rfl | ⟨c, rfl⟩
  · rcases yShort with rfl | ⟨d, rfl⟩
    · exact zeros
    · exact zero d
  · rcases yShort with rfl | ⟨d, rfl⟩
    · exact swap _ _ (zero c)
    · rcases le_total d.exp c.exp with below | above
      · obtain ⟨delta, apart⟩ := Int.le.dest below
        exact both c d delta apart.symm
      · obtain ⟨delta, apart⟩ := Int.le.dest above
        exact swap _ _ (both d c delta apart.symm)

theorem alignedSum_zeros : alignedSum 0 0 = 0 := by simp [alignedSum]

theorem Decimal.neg_of_product (c d : Decimal) :
    (0 ≤ c.value * d.value ↔ c.neg = d.neg) := by
  have cPositive := c.magnitude_pos
  have dPositive := d.magnitude_pos
  have product := mul_pos cPositive dPositive
  have signed : c.value * d.value = signFactor c.neg * signFactor d.neg *
      (c.mant * 10 ^ (c.exp - 18) * (d.mant * 10 ^ (d.exp - 18))) := by
    rw [Decimal.value, Decimal.value]
    ring
  rw [signed]
  cases c.neg <;> cases d.neg <;> simp only [signFactor] <;> constructor
  · exact fun _ => trivial
  · intro _
    linarith
  · intro _
    linarith
  · exact fun impossible => by cases impossible
  · intro _
    linarith
  · exact fun impossible => by cases impossible
  · exact fun _ => trivial
  · intro _
    linarith

/-- Addends of one sign are added exactly and truncated once. -/
theorem alignedSum_same {x y : ℚ} (xShort : IsShort x) (yShort : IsShort y) (signs : 0 ≤ x * y) :
    alignedSum x y = truncateTo 10 18 (x + y) := by
  revert signs
  apply short_cases (motive := fun x y => 0 ≤ x * y → alignedSum x y = truncateTo 10 18 (x + y)) _ _
    _ _ xShort yShort
  · intro x y holds signs
    rw [alignedSum_comm, add_comm]
    exact holds (by rwa [mul_comm])
  · intro _
    rw [alignedSum_zeros, add_zero, truncateTo_zero]
  · intro d _
    rw [alignedSum_zero_left, zero_add, Decimal.value, truncateTo_signed, truncateTo_short _ d.hi]
  · intro c d delta apart signs
    have same := (c.neg_of_product d).mp signs
    have unsigned := truncateAt_decimal ⟨false, d.exp, d.mant, d.lo, d.hi⟩ delta
    simp only [Decimal.value, signFactor, one_mul, ← apart] at unsigned
    have total := truncateAt_add (b := 10) (by decide) (c.exp - 18) c.mant d.magnitude_pos.le
    have leading : (10 : ℚ) ^ (c.exp - 1) ≤
        |(c.mant : ℚ) * 10 ^ (c.exp - 18) + d.mant * 10 ^ (d.exp - 18)| := by
      rw [abs_of_pos (add_pos c.magnitude_pos d.magnitude_pos)]
      have := c.value_abs_bounds.1
      have := d.magnitude_pos
      linarith
    have window := le_exponent (b := 10) (by decide) leading
    rw [Nat.cast_ofNat] at total
    rw [alignedSum_decimals c d delta apart, Decimal.value, Decimal.value, ← same, ← mul_add,
      ← mul_add, truncateTo_signed, truncateTo_signed, ← unsigned, ← total,
      truncateTo_truncateAt (by decide) (by decide) (add_pos c.magnitude_pos d.magnitude_pos)
        (by push_cast; omega)]

/-- Addends of opposite signs are added with one of them truncated. -/
theorem alignedSum_opposite {x y : ℚ} (xShort : IsShort x) (yShort : IsShort y) (signs : x * y < 0) :
    |alignedSum x y - (x + y)| < 10 ^ (largerExponent x y - 18) := by
  revert signs
  apply short_cases (motive := fun x y => x * y < 0 →
    |alignedSum x y - (x + y)| < 10 ^ (largerExponent x y - 18)) _ _ _ _ xShort yShort
  · intro x y holds signs
    rw [alignedSum_comm, add_comm, largerExponent_comm]
    exact holds (by rwa [mul_comm])
  · intro signs
    simp at signs
  · intro d signs
    simp at signs
  · intro c d delta apart signs
    have differ : c.neg ≠ d.neg := fun same => absurd ((c.neg_of_product d).mpr same) (not_le.mpr signs)
    have dropped : d.mant / 10 ^ delta < 10 ^ 18 := lt_of_le_of_lt (Nat.div_le_self _ _) d.hi
    have window : largerExponent c.value d.value = c.exp := by
      rw [largerExponent, if_neg c.value_ne_zero, if_neg d.value_ne_zero, c.exponent_value,
        d.exponent_value]
      omega
    have kept := truncateAt_decimal d delta
    rw [← apart] at kept
    generalize d.mant / 10 ^ delta = part at kept dropped
    -- The aligned sum is exact: both words are multiples of the same unit.
    have exact : alignedSum c.value d.value = c.value + truncateAt 10 (c.exp - 18) d.value := by
      have cHi := c.hi
      have multiple : ∃ j : ℤ, j.natAbs < 10 ^ 18 ∧
          c.value + truncateAt 10 (c.exp - 18) d.value = j * 10 ^ (c.exp - 18) := by
        rw [kept, Decimal.value]
        cases cNeg : c.neg <;> cases dNeg : d.neg
        · exact absurd (cNeg.trans dNeg.symm) differ
        · refine ⟨c.mant - part, by omega, ?_⟩
          simp only [signFactor]
          push_cast
          ring
        · refine ⟨part - c.mant, by omega, ?_⟩
          simp only [signFactor]
          push_cast
          ring
        · exact absurd (cNeg.trans dNeg.symm) differ
      obtain ⟨j, narrow, same⟩ := multiple
      have window' : alignedSum c.value d.value =
          truncateTo 10 18 (c.value + truncateAt 10 (c.exp - 18) d.value) := by
        have whole := truncateAt_decimal c 0
        rw [Nat.cast_zero, add_zero, pow_zero, Nat.div_one] at whole
        rw [alignedSum, window, whole]
        rfl
      rw [window', same]
      exact truncateTo_short_int _ narrow
    rw [exact, window, add_sub_add_left_eq_sub, abs_sub_comm]
    have moved := abs_sub_truncateAt_lt (b := 10) (by decide) (c.exp - 18) d.value
    rwa [Nat.cast_ofNat] at moved

/-! ## Integers -/

theorem Mval.IsInt.value_eq {v : Mval} (isInt : v.IsInt) : v.value = v.m1 * 10 ^ (-3 : ℤ) := by
  rw [Mval.value, isInt.int, if_pos rfl, MV_BIAS]
  norm_num
  ring

/-- A whole number of thousandths below ten million has at most seven digits before
its point. -/
theorem thousandths_exponent {m : ℤ} (small : m.natAbs < 2 * MANT_HI) :
    exponent 10 ((m : ℚ) * 10 ^ (-3 : ℤ)) ≤ 7 := by
  by_cases zero : m = 0
  · rw [zero, Int.cast_zero, zero_mul]
    simp [exponent]
  · apply exponent_le (by decide)
    · exact mul_ne_zero (by exact_mod_cast zero) (by norm_num)
    · have bound : |(m : ℚ)| < 10 ^ 10 := by
        rw [← Int.cast_abs, Int.abs_eq_natAbs, Int.cast_natCast]
        simp only [MANT_HI] at small
        have wide : m.natAbs < 10 ^ 10 := by omega
        exact_mod_cast wide
      rw [abs_mul, abs_of_pos (by norm_num : (0 : ℚ) < 10 ^ (-3 : ℤ))]
      norm_num at bound ⊢
      linarith

/-- Sums of `MV_INT` values are exact. -/
theorem alignedSum_thousandths {m n : ℤ} (mSmall : m.natAbs < MANT_HI) (nSmall : n.natAbs < MANT_HI) :
    alignedSum ((m : ℚ) * 10 ^ (-3 : ℤ)) (n * 10 ^ (-3 : ℤ)) = ((m + n : ℤ) : ℚ) * 10 ^ (-3 : ℤ) := by
  have exponents : largerExponent ((m : ℚ) * 10 ^ (-3 : ℤ)) (n * 10 ^ (-3 : ℤ)) ≤ 7 := by
    have first := thousandths_exponent (m := m) (by omega)
    have second := thousandths_exponent (m := n) (by omega)
    rw [largerExponent]
    split
    · exact second
    · split
      · exact first
      · exact max_le first second
  obtain ⟨shift, reached⟩ := Int.le.dest
    (by omega : largerExponent ((m : ℚ) * 10 ^ (-3 : ℤ)) (n * 10 ^ (-3 : ℤ)) - 18 ≤ -3)
  have inside : ∀ j : ℤ,
      truncateAt 10 (largerExponent ((m : ℚ) * 10 ^ (-3 : ℤ)) (n * 10 ^ (-3 : ℤ)) - 18)
        ((j : ℚ) * 10 ^ (-3 : ℤ)) = j * 10 ^ (-3 : ℤ) := by
    intro j
    have multiple := truncateAt_of_multiple (b := 10)
      (k := largerExponent ((m : ℚ) * 10 ^ (-3 : ℤ)) (n * 10 ^ (-3 : ℤ)) - 18) (by decide) j shift
    rwa [reached, Nat.cast_ofNat] at multiple
  have sum : (m : ℚ) * 10 ^ (-3 : ℤ) + n * 10 ^ (-3 : ℤ) = ((m + n : ℤ) : ℚ) * 10 ^ (-3 : ℤ) := by
    rw [Int.cast_add, add_mul]
  simp only [MANT_HI] at mSmall nSmall
  rw [alignedSum_exact (inside m) (inside n)]
  · exact sum
  · rw [sum]
    exact truncateTo_short_int _ (by omega)

/-- A stored integer sum is the canonical form of the sum. -/
theorem storeIntSum_canonical (s : Mval) {m : ℤ} (small : m.natAbs < 2 * MANT_HI) :
    (storeIntSum s m).Canonical ∧ (storeIntSum s m).value = m * 10 ^ (-3 : ℤ) := by
  by_cases fits : m < MANT_HI ∧ -(MANT_HI : Int) < m
  · rw [storeIntSum, if_pos fits]
    have isInt : Mval.IsInt { s with mvtype := mvNmInt, m1 := m } :=
      ⟨rfl, rfl, (by omega : m.natAbs < MANT_HI)⟩
    exact ⟨.inl isInt, isInt.value_eq⟩
  · rw [storeIntSum, if_neg fits]
    dsimp only
    have magnitude : ((m.natAbs : ℕ) : ℚ) * signFactor (!decide (0 < m)) = m := by
      rcases lt_or_ge 0 m with positive | negative
      · rw [decide_eq_true positive, Bool.not_true, signFactor, mul_one, ← Int.cast_natCast,
          Int.natAbs_of_nonneg positive.le]
      · rw [decide_eq_false (not_lt.mpr negative), Bool.not_false, signFactor, ← Int.cast_natCast,
          Int.ofNat_natAbs_of_nonpos negative]
        push_cast
        ring
    have large : MANT_HI ≤ m.natAbs := by omega
    have digits : m.natAbs / 10 * 10 ^ 9 + (m.natAbs - m.natAbs / 10 * 10) * MANT_LO =
        m.natAbs * 10 ^ 8 := by
      have split := Nat.div_add_mod m.natAbs 10
      rw [show m.natAbs - m.natAbs / 10 * 10 = m.natAbs % 10 by omega, MANT_LO]
      generalize m.natAbs / 10 = q at *
      generalize m.natAbs % 10 = r at *
      rw [← split]
      ring
    generalize stored : ({ s with
        mvtype := mvNm
        sgn := !decide (0 < m)
        e := EXP_INT_OVERF
        m0 := ((m.natAbs - m.natAbs / 10 * 10) * MANT_LO : Nat)
        m1 := (m.natAbs / 10 : Nat) } : Mval) = w
    have value : w.value = m * 10 ^ (-3 : ℤ) := by
      have mantissa : ((m.natAbs / 10 : ℕ) : ℚ) * 10 ^ 9 +
          (((m.natAbs - m.natAbs / 10 * 10) * MANT_LO : ℕ) : ℚ) = m.natAbs * 10 ^ 8 := by
        exact_mod_cast congrArg (fun n : ℕ => (n : ℚ)) digits
      rw [← stored]
      simp only [Mval.value, mvNm, Bool.false_eq_true, if_false, MANT_HI, Int.cast_natCast]
      rw [show ((1000000000 : ℕ) : ℚ) = 10 ^ 9 by norm_num, mantissa, ← magnitude, EXP_INT_OVERF,
        MV_XBIAS]
      norm_num
      ring
    have isFloat : w.IsFloat := by
      rw [← stored]
      simp only [MANT_HI] at small large
      constructor <;> simp only [mvNm, MANT_LO, MANT_HI, EXPLO, EXPHI, EXP_INT_OVERF] <;> omega
    refine ⟨.inr ⟨isFloat, ?_⟩, value⟩
    rintro ⟨n, within, same⟩
    rw [value, MV_BIAS] at same
    have equal : (m : ℚ) = n := by
      norm_num at same
      linarith
    have : m = n := by exact_mod_cast equal
    omega

/-- `op_add` and `op_sub` compute the aligned sum. -/
theorem addOrSubtract_delivers (tg : ThreadGbl) {u v : Mval} (uCanonical : u.Canonical)
    (vCanonical : v.Canonical) (uNotNull : u.mvtype.sqlnull = false)
    (vNotNull : v.mvtype.sqlnull = false) (subtraction : Bool) (s : Mval) :
    Delivers (alignedSum u.value (if subtraction then -v.value else v.value))
      (addOrSubtract tg subtraction u v s) := by
  have uForced := mvForceNum_of_canonical tg uCanonical uNotNull
  have vForced := mvForceNum_of_canonical tg vCanonical vNotNull
  have body : addOrSubtract tg subtraction u v s =
      if u.mvtype.int && v.mvtype.int then
        .ok (storeIntSum s (if subtraction then u.m1 - v.m1 else u.m1 + v.m1))
      else add_mvals u v subtraction s := by
    simp only [addOrSubtract, uNotNull, vNotNull, Bool.or_self, Bool.false_eq_true, if_false, uForced,
      vForced]
    rfl
  rw [body]
  by_cases ints : (u.mvtype.int && v.mvtype.int) = true
  · rw [if_pos ints]
    rw [Bool.and_eq_true] at ints
    have uInt : u.IsInt := by
      refine uCanonical.resolve_right ?_
      rintro ⟨isFloat, _⟩
      exact absurd (isFloat.int.symm.trans ints.1) Bool.false_ne_true
    have vInt : v.IsInt := by
      refine vCanonical.resolve_right ?_
      rintro ⟨isFloat, _⟩
      exact absurd (isFloat.int.symm.trans ints.2) Bool.false_ne_true
    have uSmall := uInt.small
    have vSmall := vInt.small
    have operand : (if subtraction then -v.value else v.value) =
        ((if subtraction then -v.m1 else v.m1 : ℤ) : ℚ) * 10 ^ (-3 : ℤ) := by
      rw [vInt.value_eq]
      cases subtraction <;> simp
    have sum : (if subtraction then u.m1 - v.m1 else u.m1 + v.m1) =
        u.m1 + if subtraction then -v.m1 else v.m1 := by
      cases subtraction <;> simp [sub_eq_add_neg]
    have signedSmall : (if subtraction then -v.m1 else v.m1).natAbs < MANT_HI := by
      split <;> omega
    rw [operand, uInt.value_eq, alignedSum_thousandths uSmall signedSmall, sum]
    obtain ⟨canonical, value⟩ := storeIntSum_canonical s (m := u.m1 + if subtraction then -v.m1 else v.m1)
      (by omega)
    rw [← value]
    exact canonical.delivers
  · rw [if_neg ints]
    exact add_mvals_delivers uCanonical vCanonical subtraction s

/-- Addition and subtraction of canonical numbers. The outcome is the canonical
form of the aligned sum, an overflow exactly from exponent `EXPHI` on and zero
exactly for zero and below exponent `EXPLO`. The aligned sum is the exact sum when
no operand has a digit below the window of the larger and the sum has at most
eighteen digits; it is the exact sum truncated to eighteen digits for addends of
one sign, and less than a unit of the window's last digit away from it otherwise.
The order of the addends does not matter. -/
theorem sums_and_differences (tg : ThreadGbl) {u v : Mval} (uCanonical : u.Canonical)
    (vCanonical : v.Canonical) (uNotNull : u.mvtype.sqlnull = false)
    (vNotNull : v.mvtype.sqlnull = false) (subtraction : Bool) (s : Mval) :
    let y := if subtraction then -v.value else v.value
    let r := alignedSum u.value y
    let E := largerExponent u.value y
    (∀ outcome ∈ [add_mvals u v subtraction s,
        if subtraction then op_sub tg u v s else op_add tg u v s],
      Delivers r outcome ∧
      (outcome = .error .numoflow ↔ (EXPHI : Int) ≤ exponent 10 r + MV_XBIAS) ∧
      ((∃ w, outcome = .ok w ∧ w.value = 0) ↔ r = 0 ∨ exponent 10 r + MV_XBIAS < EXPLO)) ∧
    (truncateAt 10 (E - 18) u.value = u.value → truncateAt 10 (E - 18) y = y →
      truncateTo 10 18 (u.value + y) = u.value + y → r = u.value + y) ∧
    (0 ≤ u.value * y → r = truncateTo 10 18 (u.value + y)) ∧
    (u.value * y < 0 → |r - (u.value + y)| < 10 ^ (E - 18)) ∧
    SameOutcome (op_add tg u v s) (op_add tg v u s) ∧
    SameOutcome (add_mvals u v false s) (add_mvals v u false s) := by
  dsimp only
  have uShort : IsShort u.value := uCanonical.isShort false
  have vShort := vCanonical.isShort subtraction
  refine ⟨?_, alignedSum_exact, alignedSum_same uShort vShort, alignedSum_opposite uShort vShort,
    ?_, ?_⟩
  · intro outcome listed
    have delivers : Delivers (alignedSum u.value (if subtraction then -v.value else v.value))
        outcome := by
      rcases List.mem_pair.mp listed with rfl | rfl
      · exact add_mvals_delivers uCanonical vCanonical subtraction s
      · have routine : (if subtraction then op_sub tg u v s else op_add tg u v s) =
            addOrSubtract tg subtraction u v s := by
          cases subtraction <;> rfl
        rw [routine]
        exact addOrSubtract_delivers tg uCanonical vCanonical uNotNull vNotNull subtraction s
    exact ⟨delivers, delivers.overflow_iff, delivers.zero_iff⟩
  · have forward := addOrSubtract_delivers tg uCanonical vCanonical uNotNull vNotNull false s
    have backward := addOrSubtract_delivers tg vCanonical uCanonical vNotNull uNotNull false s
    rw [if_neg Bool.false_ne_true, alignedSum_comm] at forward
    exact forward.same backward
  · have forward := add_mvals_delivers uCanonical vCanonical false s
    have backward := add_mvals_delivers vCanonical uCanonical false s
    rw [if_neg Bool.false_ne_true, alignedSum_comm] at forward
    exact forward.same backward

/-- 0.000999999999000000001 is subtracted from 1234567.25. Its last digits are shifted out,
and the subtraction borrows from the higher word. -/
theorem sums_and_differences_shifted : ∃ u v : Mval,
    u = ⟨mvNm, false, 69, 0, 123456725, []⟩ ∧ v = ⟨mvNm, false, 59, 1, 999999999, []⟩ ∧
    op_sub ⟨false, false⟩ u v literal_zero =
      .ok ⟨mvNm, false, 69, 900000001, 123456724, [Ascii.zero]⟩ ∧
    let r := alignedSum u.value (-v.value)
    let E := largerExponent u.value (-v.value)
    (∀ outcome ∈ [add_mvals u v true literal_zero, op_sub ⟨false, false⟩ u v literal_zero],
      Delivers r outcome ∧
      (outcome = .error .numoflow ↔ (EXPHI : Int) ≤ exponent 10 r + MV_XBIAS) ∧
      ((∃ w, outcome = .ok w ∧ w.value = 0) ↔ r = 0 ∨ exponent 10 r + MV_XBIAS < EXPLO)) ∧
    (truncateAt 10 (E - 18) u.value = u.value → truncateAt 10 (E - 18) (-v.value) = -v.value →
      truncateTo 10 18 (u.value + -v.value) = u.value + -v.value → r = u.value + -v.value) ∧
    (0 ≤ u.value * -v.value → r = truncateTo 10 18 (u.value + -v.value)) ∧
    (u.value * -v.value < 0 → |r - (u.value + -v.value)| < 10 ^ (E - 18)) ∧
    SameOutcome (op_add ⟨false, false⟩ u v literal_zero) (op_add ⟨false, false⟩ v u literal_zero) ∧
    SameOutcome (add_mvals u v false literal_zero) (add_mvals v u false literal_zero) := by
  have first : Mval.IsFloat ⟨mvNm, false, 69, 0, 123456725, []⟩ := by
    constructor <;> decide
  have second : Mval.IsFloat ⟨mvNm, false, 59, 1, 999999999, []⟩ := by
    constructor <;> decide
  exact ⟨_, _, rfl, rfl, rfl, sums_and_differences ⟨false, false⟩
    (first.canonical 8 rfl (by decide)) (second.canonical 18 rfl (by decide)) rfl rfl true
    literal_zero⟩

end Ydb
