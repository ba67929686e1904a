import Mathlib.Data.Nat.Digits.Defs
import Ydb.StringNumbers
import Ydb.NumberComparison

/-!
# Conversion of 64-bit integers

`i82mval` and `ui82mval` make an M value of a machine integer. One below a million is
an `MV_INT` value, one of at most eighteen digits is a float whose two words are scaled
until the first digit is not zero, and a longer one is a string. `mval2i8` goes back. It
multiplies or divides the two words by the power of ten that the exponent asks for; its
variables are 64 bits wide, and what they hold fits whenever the result does.
-/

namespace Ydb

open Lib

/-- An `MV_INT` value that is a whole number is below this in magnitude. -/
def INT_HI : Nat := 1000000

/-! ## From an integer -/

/-- The loop that scales one word. It ends after eight rounds for a word that is not
zero. -/
def scaleWord : Nat → Nat → Nat → Nat × Nat
  | 0, high, exp => (high, exp)
  | fuel + 1, high, exp =>
    if high < MANT_LO then scaleWord fuel (high * 10) (exp - 1) else (high, exp)

/-- The loop that scales two words. -/
def scaleWords : Nat → Nat → Nat → Nat → Nat × Nat × Nat
  | 0, high, low, exp => (high, low, exp)
  | fuel + 1, high, low, exp =>
    if high < MANT_LO then
      scaleWords fuel (high * 10 + low / MANT_LO) (low % MANT_LO * 10) (exp - 1)
    else (high, low, exp)

/-- The digits that `SNPRINTF` writes. -/
def integerText (sgn : Bool) (i : Nat) : List UInt8 :=
  Decimal.signText sgn ++ (Nat.digits 10 i).reverse.map digitByte

/-- The sign is in `v`, and `i` is the magnitude. -/
def xi82mval (v : Mval) (i : Nat) : Mval :=
  if i < INT_HI then
    { v with
      mvtype := { v.mvtype with int := true }
      m1 := MV_BIAS * (if v.sgn then -(i : Int) else i) }
  else if i < MANT_HI then
    let (high, exp) := scaleWord NUM_DEC_DG_1L i EXP_IDX_BIAL
    { v with e := exp, m0 := 0, m1 := high }
  else if i < MANT_HI * MANT_HI then
    let (high, low, exp) := scaleWords NUM_DEC_DG_1L (i / MANT_HI) (i % MANT_HI) (EXP_IDX_BIAL + 9)
    { v with e := exp, m0 := low, m1 := high }
  else
    { v with
      mvtype := ⟨false, false, true, false, false⟩
      str := integerText v.sgn i }

/-- From an unsigned eight-byte number. -/
def ui82mval (v : Mval) (i : Nat) : Mval :=
  xi82mval { v with mvtype := ⟨true, false, false, false, false⟩, sgn := false } i

/-- From an eight-byte number. -/
def i82mval (v : Mval) (i : Int) : Mval :=
  xi82mval { v with mvtype := ⟨true, false, false, false, false⟩, sgn := decide (i < 0) } i.natAbs

/-! ## To an integer -/

/-- What a `gtm_int64_t` holds of an integer. -/
def int64 (x : Int) : Int := x.bmod (2 ^ 64)

/-- The loop over exponents too large for two words. -/
def raiseWords : Nat → Int → Int → Nat → Int × Int × Nat
  | 0, x, y, exp => (x, y, exp)
  | fuel + 1, x, y, exp =>
    if EXP_IDX_BIAL + 18 < exp then raiseWords fuel (int64 (x * MANT_HI)) (int64 (y * MANT_HI)) (exp - 9)
    else (x, y, exp)

/-- The same loop for one word. -/
def raiseWord : Nat → Int → Nat → Int × Nat
  | 0, x, exp => (x, exp)
  | fuel + 1, x, exp =>
    if EXP_IDX_BIAL + 9 < exp then raiseWord fuel (int64 (x * MANT_HI)) (exp - 9) else (x, exp)

/-- `x` and `y` of `mval2i8`, for a number of ten digits or more before the point: what
the two words contribute. -/
def raisedWords (exp : Nat) (x y : Int) : Int × Int :=
  if 0 < y then
    let (x, y, exp) := raiseWords exp (int64 (x * MANT_HI)) y exp
    if EXP_IDX_BIAL + 9 ≤ exp then
      (int64 (x * ten_pwr (exp - EXP_IDX_BIAL - 9)), int64 (y * ten_pwr (exp - EXP_IDX_BIAL - 9)))
    else
      (x.tdiv (ten_pwr (EXP_IDX_BIAL + 9 - exp)), y.tdiv (ten_pwr (EXP_IDX_BIAL + 9 - exp)))
  else
    let (x, exp) := raiseWord exp x exp
    (int64 (x * ten_pwr (exp - EXP_IDX_BIAL)), y)

/-- `mval2i8` on a value with valid numeric fields. -/
def mval2i8Number (v : Mval) : Int :=
  if v.mvtype.int then v.m1.tdiv MV_BIAS
  else if EXP_IDX_BIAL < v.e then
    let (x, y) := raisedWords v.e v.m1 v.m0
    if v.sgn then int64 (-x - y) else int64 (x + y)
  else if v.e < MV_XBIAS then 0
  else (if v.sgn then -v.m1 else v.m1).tdiv (ten_pwr (EXP_IDX_BIAL - v.e))

/-- To an eight-byte number. -/
def mval2i8 (tg : ThreadGbl) (v : Mval) : Except RtsError Int := (mvForceNum tg v).map mval2i8Number

/-- The same bits, unsigned. -/
def mval2ui8 (tg : ThreadGbl) (v : Mval) : Except RtsError Nat :=
  (mval2i8 tg v).map fun x => (x % 2 ^ 64).toNat

/-! ## Truncation to a whole number -/

/-- The whole part of a number, toward zero. -/
def towardZero (q : ℚ) : ℤ := if q < 0 then -⌊-q⌋ else ⌊q⌋

theorem towardZero_of_nonneg {q : ℚ} (nonneg : 0 ≤ q) : towardZero q = ⌊q⌋ := if_neg (not_lt.mpr nonneg)

theorem towardZero_neg (q : ℚ) : towardZero (-q) = -towardZero q := by
  rcases lt_trichotomy q 0 with negative | rfl | positive
  · rw [towardZero, towardZero, if_neg (by linarith), if_pos negative, neg_neg]
  · simp [towardZero]
  · rw [towardZero, towardZero, if_pos (by linarith), if_neg (by linarith), neg_neg]

theorem towardZero_intCast (i : ℤ) : towardZero (i : ℚ) = i := by
  unfold towardZero
  split
  · rw [← Int.cast_neg, Int.floor_intCast, neg_neg]
  · rw [Int.floor_intCast]

/-- The sign is kept apart. -/
theorem towardZero_signFactor (neg : Bool) {q : ℚ} (nonneg : 0 ≤ q) :
    towardZero (signFactor neg * q) = if neg then -⌊q⌋ else ⌊q⌋ := by
  cases neg
  · rw [signFactor, one_mul, towardZero_of_nonneg nonneg]
    rfl
  · rw [signFactor, neg_one_mul, towardZero_neg, towardZero_of_nonneg nonneg]
    rfl

/-- Division of integers truncates. -/
theorem towardZero_div (a : ℤ) (b : ℕ) : towardZero ((a : ℚ) / b) = a.tdiv b := by
  rcases lt_or_ge a 0 with negative | nonneg
  · obtain ⟨n, rfl⟩ : ∃ n : ℕ, a = -(n : ℤ) := ⟨a.natAbs, by omega⟩
    rw [Int.cast_neg, neg_div, towardZero_neg, towardZero_of_nonneg (by positivity), Int.neg_tdiv,
      Int.cast_natCast]
    congr 1
    rw [Rat.floor_natCast_div_natCast, Int.tdiv_eq_ediv_of_nonneg (by omega)]
  · obtain ⟨n, rfl⟩ := Int.eq_ofNat_of_zero_le nonneg
    rw [Int.cast_natCast, towardZero_of_nonneg (by positivity), Rat.floor_natCast_div_natCast,
      Int.tdiv_eq_ediv_of_nonneg (by omega)]

/-- The whole part of `M` times a power of ten. -/
def wholePart (M e : Nat) : Nat := if 80 ≤ e then M * 10 ^ (e - 80) else M / 10 ^ (80 - e)

theorem floor_scaled (M e : Nat) : ⌊(M : ℚ) * 10 ^ ((e : ℤ) - MV_XBIAS - 18)⌋ = wholePart M e := by
  unfold wholePart
  simp only [MV_XBIAS]
  split
  · rename_i large
    obtain ⟨k, rfl⟩ := Nat.exists_eq_add_of_le large
    rw [show ((80 + k : ℕ) : ℤ) - (62 : ℕ) - 18 = (k : ℤ) by push_cast; ring, zpow_natCast,
      Nat.add_sub_cancel_left]
    exact_mod_cast Int.floor_natCast (M * 10 ^ k)
  · rename_i small
    obtain ⟨k, same⟩ : ∃ k, 80 - e = k := ⟨_, rfl⟩
    rw [show (e : ℤ) - (62 : ℕ) - 18 = -(k : ℤ) by omega, zpow_neg, zpow_natCast, ← div_eq_mul_inv, same]
    have floor := Rat.floor_natCast_div_natCast M (10 ^ k)
    push_cast at floor ⊢
    exact floor

theorem Mval.IsFloat.towardZero_value {v : Mval} (isFloat : v.IsFloat) {high low : Nat}
    (m1 : v.m1 = high) (m0 : v.m0 = low) :
    towardZero v.value =
      if v.sgn then -(wholePart (high * 10 ^ 9 + low) v.e : Int) else wholePart (high * 10 ^ 9 + low) v.e := by
  have shape : v.value = signFactor v.sgn *
      (((high * 10 ^ 9 + low : ℕ) : ℚ) * 10 ^ ((v.e : ℤ) - MV_XBIAS - 18)) := by
    rw [Mval.value, isFloat.int, m1, m0]
    simp only [MANT_HI]
    push_cast
    ring_nf
  have nonneg : (0 : ℚ) ≤ ((high * 10 ^ 9 + low : ℕ) : ℚ) * 10 ^ ((v.e : ℤ) - MV_XBIAS - 18) :=
    mul_nonneg (Nat.cast_nonneg _) (zpow_nonneg (by norm_num) _)
  rw [shape, towardZero_signFactor _ nonneg, floor_scaled]

/-- Nothing is lost of an integer that fits. -/
theorem int64_of_fits {x : Int} (above : -2 ^ 63 ≤ x) (below : x < 2 ^ 63) : int64 x = x := by
  unfold int64
  apply Int.bmod_eq_of_le
  · omega
  · omega

theorem int64_natCast {n : Nat} (below : n < 2 ^ 63) : int64 n = n := int64_of_fits (by omega) (by omega)

/-! ## The routine on floats -/

section Floats

variable {high low e : Nat}

theorem raiseWords_of_le {exp : Nat} (fuel : Nat) (x y : Int) (small : exp ≤ EXP_IDX_BIAL + 18) :
    raiseWords fuel x y exp = (x, y, exp) := by
  cases fuel with
  | zero => rfl
  | succ fuel => rw [raiseWords, if_neg (Nat.not_lt.mpr small)]

theorem raiseWord_of_le {exp : Nat} (fuel : Nat) (x : Int) (small : exp ≤ EXP_IDX_BIAL + 9) :
    raiseWord fuel x exp = (x, exp) := by
  cases fuel with
  | zero => rfl
  | succ fuel => rw [raiseWord, if_neg (Nat.not_lt.mpr small)]

/-- A whole part of eighteen digits that fits has an exponent of at most nineteen. -/
theorem exponent_of_fits {M : Nat} (lo : 10 ^ 17 ≤ M) (fits : wholePart M e ≤ 2 ^ 63) : e ≤ 81 := by
  by_contra large
  rw [wholePart, if_pos (by omega)] at fits
  have power : 10 ^ 2 ≤ 10 ^ (e - 80) := Nat.pow_le_pow_right (by decide) (by omega)
  have product := Nat.mul_le_mul lo power
  omega

/-- No number of eighteen digits is the one integer whose negation alone fits. -/
theorem wholePart_lt {M : Nat} (hi : M < 10 ^ 18) (fits : wholePart M e ≤ 2 ^ 63) : wholePart M e < 2 ^ 63 := by
  unfold wholePart at fits ⊢
  split
  · rename_i large
    rw [if_pos large] at fits
    by_cases same : e = 80
    · subst same
      omega
    · obtain ⟨k, power⟩ : ∃ k, e - 80 = k + 1 := ⟨e - 81, by omega⟩
      rw [power, Nat.pow_succ, ← Nat.mul_assoc] at fits ⊢
      omega
  · have below := Nat.div_le_self M (10 ^ (80 - e))
    omega

/-- Below one. -/
theorem wholePart_small (hi : high < 10 ^ 9) (low_hi : low < 10 ^ 9) (small : e < 62) :
    wholePart (high * 10 ^ 9 + low) e = 0 := by
  rw [wholePart, if_neg (by omega)]
  apply Nat.div_eq_of_lt
  have power : 10 ^ 18 ≤ 10 ^ (80 - e) := Nat.pow_le_pow_right (by decide) (by omega)
  omega

/-- The whole part is in the first word. -/
theorem wholePart_high (low_hi : low < 10 ^ 9) (small : e ≤ 71) :
    wholePart (high * 10 ^ 9 + low) e = high / 10 ^ (71 - e) := by
  rw [wholePart, if_neg (by omega), show 80 - e = 9 + (71 - e) by omega, Nat.pow_add,
    ← Nat.div_div_eq_div_mul]
  congr 1
  omega

/-- The whole part is the first word and some digits of the second. -/
theorem wholePart_both (above : 71 < e) (below : e < 80) :
    wholePart (high * 10 ^ 9 + low) e = high * 10 ^ (e - 71) + low / 10 ^ (80 - e) := by
  have power : 10 ^ 9 = 10 ^ (e - 71) * 10 ^ (80 - e) := by
    rw [← Nat.pow_add, show e - 71 + (80 - e) = 9 by omega]
  rw [wholePart, if_neg (by omega), power, ← Nat.mul_assoc, Nat.add_comm,
    Nat.add_mul_div_right _ _ (Nat.pow_pos (by decide)), Nat.add_comm]

/-- The two words add up to the whole part. -/
theorem raisedWords_eq (hi : high < 10 ^ 9) (low_hi : low < 10 ^ 9) (above : 71 < e) (below : e ≤ 81)
    (fits : wholePart (high * 10 ^ 9 + low) e < 2 ^ 63) : ∃ x y : Nat,
    raisedWords e high low = ((x : Int), (y : Int)) ∧ x + y = wholePart (high * 10 ^ 9 + low) e := by
  have scaled : int64 (high * (MANT_HI : Nat)) = ((high * 10 ^ 9 : Nat) : Int) := by
    rw [← Nat.cast_mul, int64_natCast (by simp only [MANT_HI]; omega)]
    rfl
  have bial : EXP_IDX_BIAL = 71 := rfl
  unfold raisedWords
  rw [bial]
  split
  · rw [raiseWords_of_le e _ _ (by rw [bial]; omega), scaled]
    dsimp only
    split
    · -- Both words are multiplied.
      rename_i large
      rw [wholePart, if_pos (by omega), Nat.add_mul] at fits ⊢
      refine ⟨high * 10 ^ 9 * 10 ^ (e - 80), low * 10 ^ (e - 80), ?_, rfl⟩
      rw [ten_pwr_eq _ (by omega), show e - 71 - 9 = e - 80 by omega, ← Nat.cast_mul, ← Nat.cast_mul,
        int64_natCast (by omega), int64_natCast (by omega)]
    · -- Both words are divided, the first without a remainder.
      rename_i small
      have power : 10 ^ 9 = 10 ^ (e - 71) * 10 ^ (80 - e) := by
        rw [← Nat.pow_add, show e - 71 + (80 - e) = 9 by omega]
      refine ⟨high * 10 ^ (e - 71), low / 10 ^ (80 - e), ?_, (wholePart_both above (by omega)).symm⟩
      rw [ten_pwr_eq _ (by omega), show 71 + 9 - e = 80 - e by omega, ← Int.ofNat_tdiv, ← Int.ofNat_tdiv,
        power, ← Nat.mul_assoc, Nat.mul_div_cancel _ (Nat.pow_pos (by decide))]
  · -- There is one word.
    rename_i none
    obtain rfl : low = 0 := by omega
    refine ⟨wholePart (high * 10 ^ 9 + 0) e, 0, ?_, rfl⟩
    by_cases last : e = 81
    · subst last
      rw [raiseWord, if_pos (by decide), scaled, raiseWord_of_le _ _ (by decide)]
      have product : wholePart (high * 10 ^ 9 + 0) 81 = high * 10 ^ 9 * 10 := by
        rw [wholePart, if_pos (by decide), Nat.add_zero, show 81 - 80 = 1 from rfl, Nat.pow_one]
      rw [product] at fits ⊢
      dsimp only
      rw [show ten_pwr (81 - 9 - 71) = 10 from rfl, ← Nat.cast_mul, int64_natCast fits]
    · have product : wholePart (high * 10 ^ 9 + 0) e = high * 10 ^ (e - 71) := by
        by_cases whole : e = 80
        · subst whole
          rw [wholePart, if_pos (by decide)]
          omega
        · rw [wholePart_both above (by omega), Nat.zero_div, Nat.add_zero]
      rw [product] at fits ⊢
      rw [raiseWord_of_le _ _ (by rw [bial]; omega)]
      dsimp only
      rw [ten_pwr_eq _ (by omega), ← Nat.cast_mul, int64_natCast fits]

end Floats

/-- A float becomes its whole part. -/
theorem Mval.IsFloat.mval2i8Number_eq {v : Mval} (isFloat : v.IsFloat)
    (above : -2 ^ 63 ≤ towardZero v.value) (below : towardZero v.value < 2 ^ 63) :
    mval2i8Number v = towardZero v.value := by
  obtain ⟨high, low, m1, m0, high_lo, high_hi, low_hi⟩ := isFloat.words
  rw [isFloat.towardZero_value m1 m0] at above below ⊢
  have fits : wholePart (high * 10 ^ 9 + low) v.e < 2 ^ 63 := by
    apply wholePart_lt (by omega)
    split at above <;> rename_i sgn
    · omega
    · rw [if_neg sgn] at below
      omega
  have small := exponent_of_fits (by omega) (Nat.le_of_lt fits)
  have bial : EXP_IDX_BIAL = 71 := rfl
  rw [mval2i8Number, isFloat.int, if_neg (by decide), bial, m1, m0]
  split
  · rename_i large
    obtain ⟨x, y, words, sum⟩ := raisedWords_eq high_hi low_hi large small fits
    rw [words, ← sum]
    dsimp only
    split
    · rw [int64_of_fits (by omega) (by omega)]
      push_cast
      ring
    · rw [int64_of_fits (by omega) (by omega)]
      push_cast
      rfl
  · rename_i little
    split
    · rename_i fraction
      rw [wholePart_small high_hi low_hi fraction]
      split <;> rfl
    · rename_i whole
      simp only [MV_XBIAS] at whole
      rw [wholePart_high low_hi (by omega), ten_pwr_eq _ (by omega)]
      split
      · rw [Int.neg_tdiv, ← Int.ofNat_tdiv]
      · rw [← Int.ofNat_tdiv]

theorem Mval.IsInt.mval2i8Number_eq {v : Mval} (isInt : v.IsInt) : mval2i8Number v = towardZero v.value := by
  rw [mval2i8Number, if_pos isInt.int, Mval.value, if_pos isInt.int, towardZero_div]

/-! ## The scaling loops -/

/-- The loop multiplies by a power of ten that leaves nine digits. -/
theorem scaleWords_spec (fuel high low exp : Nat) (low_hi : low < 10 ^ 9) (lo : 10 ^ 8 ≤ high * 10 ^ fuel)
    (hi : high < 10 ^ 9) (room : fuel ≤ exp) : ∃ k high' low' : Nat,
    scaleWords fuel high low exp = (high', low', exp - k) ∧ k ≤ fuel ∧
      10 ^ 8 ≤ high' ∧ high' < 10 ^ 9 ∧ low' < 10 ^ 9 ∧
      high' * 10 ^ 9 + low' = (high * 10 ^ 9 + low) * 10 ^ k := by
  induction fuel generalizing high low exp with
  | zero => exact ⟨0, high, low, rfl, Nat.le_refl 0, by omega, hi, low_hi, by omega⟩
  | succ fuel ih =>
    rw [scaleWords]
    by_cases small : high < MANT_LO
    · rw [if_pos small]
      simp only [MANT_LO] at small ⊢
      have lower : 10 ^ 8 ≤ (high * 10 + low / 100000000) * 10 ^ fuel := by
        calc 10 ^ 8 ≤ high * 10 ^ (fuel + 1) := lo
          _ = high * 10 * 10 ^ fuel := by rw [Nat.pow_succ]; ring
          _ ≤ (high * 10 + low / 100000000) * 10 ^ fuel := Nat.mul_le_mul_right _ (Nat.le_add_right _ _)
      obtain ⟨k, high', low', reached, count, high_lo, high_hi, low_hi', sum⟩ :=
        ih (high * 10 + low / 100000000) (low % 100000000 * 10) (exp - 1) (by omega) lower
          (by omega) (by omega)
      refine ⟨k + 1, high', low', ?_, by omega, high_lo, high_hi, low_hi', ?_⟩
      · rw [reached, Nat.sub_sub, Nat.add_comm]
      · have power : 10 ^ (k + 1) = 10 * 10 ^ k := Nat.pow_succ'
        have tenfold : (high * 10 + low / 100000000) * 10 ^ 9 + low % 100000000 * 10 =
            (high * 10 ^ 9 + low) * 10 := by
          conv_rhs => rw [← Nat.div_add_mod low 100000000]
          ring
        rw [sum, power, tenfold, Nat.mul_assoc]
    · rw [if_neg small]
      simp only [MANT_LO] at small
      exact ⟨0, high, low, rfl, Nat.zero_le _, by omega, hi, low_hi, by omega⟩

/-- One word is scaled as two words are whose second is zero. -/
theorem scaleWord_eq (fuel high exp : Nat) :
    scaleWord fuel high exp = ((scaleWords fuel high 0 exp).1, (scaleWords fuel high 0 exp).2.2) ∧
      (scaleWords fuel high 0 exp).2.1 = 0 := by
  induction fuel generalizing high exp with
  | zero => exact ⟨rfl, rfl⟩
  | succ fuel ih =>
    rw [scaleWord, scaleWords]
    split
    · exact ih (high * 10) (exp - 1)
    · exact ⟨rfl, rfl⟩

/-! ## The value of an integer -/

/-- What a conversion makes of the magnitude `i` with the sign of `v`. -/
structure Converted (v : Mval) (i : Nat) (w : Mval) : Prop where
  canonical : w.Canonical
  value : w.value = signFactor v.sgn * i
  notNull : w.mvtype.sqlnull = false

/-- A float of a million or more is not a small number of thousandths. -/
theorem not_intRepresentable {w : Mval} {neg : Bool} {i : Nat} (large : INT_HI ≤ i)
    (value : w.value = signFactor neg * i) : ¬ w.IntRepresentable := by
  rintro ⟨m, small, same⟩
  have thousandths : (m : ℚ) = signFactor neg * (i * 1000) := by
    rw [value] at same
    simp only [MV_BIAS] at same
    have scaled := congrArg (· * (1000 : ℚ)) same
    simp only [Nat.cast_ofNat, div_mul_cancel₀ _ (by norm_num : (1000 : ℚ) ≠ 0)] at scaled
    rw [← scaled]
    ring
  have magnitude : m.natAbs = i * 1000 := by
    cases neg
    · rw [signFactor, one_mul] at thousandths
      have exact : m = ((i * 1000 : ℕ) : ℤ) := by exact_mod_cast thousandths
      omega
    · rw [signFactor, neg_one_mul] at thousandths
      have exact : m = -((i * 1000 : ℕ) : ℤ) := by exact_mod_cast thousandths
      omega
  simp only [INT_HI, MANT_HI] at large small
  omega

/-- Two scaled words and their exponent. -/
theorem converted_of_words {v w : Mval} {i k high low : Nat} (mvtype : w.mvtype = ⟨true, false, false, false, false⟩)
    (sgn : w.sgn = v.sgn) (e : w.e = 80 - k) (m1 : w.m1 = high) (m0 : w.m0 = low) (few : k ≤ 18)
    (high_lo : 10 ^ 8 ≤ high) (high_hi : high < 10 ^ 9) (low_hi : low < 10 ^ 9)
    (sum : high * 10 ^ 9 + low = i * 10 ^ k) (large : INT_HI ≤ i) : Converted v i w := by
  have isFloat : w.IsFloat := by
    constructor
    · rw [mvtype]
    · rw [mvtype]
    · rw [m1]
      simp only [MANT_LO]
      omega
    · rw [m1]
      simp only [MANT_HI]
      omega
    · omega
    · rw [m0]
      simp only [MANT_HI]
      omega
    · simp only [EXPLO]
      omega
    · simp only [EXPHI]
      omega
  have value : w.value = signFactor v.sgn * i := by
    have scale : (10 : ℚ) ^ k * 10 ^ (((80 - k : ℕ) : ℤ) - 62 - 18) = 1 := by
      rw [← zpow_natCast, ← zpow_add₀ (by norm_num),
        show (k : ℤ) + (((80 - k : ℕ) : ℤ) - 62 - 18) = 0 by omega, zpow_zero]
    have words : (high : ℚ) * 1000000000 + low = i * 10 ^ k := by exact_mod_cast sum
    rw [Mval.value, isFloat.int, if_neg (by decide), m1, m0, e, sgn]
    simp only [MANT_HI, MV_XBIAS, Int.cast_natCast, Nat.cast_ofNat]
    rw [words, mul_assoc, mul_assoc, scale, mul_one]
  exact ⟨.inr ⟨isFloat, not_intRepresentable large value⟩, value, by rw [mvtype]⟩

/-- An integer of any size becomes a number. -/
theorem xi82mval_converted {v : Mval} {i : Nat} (mvtype : v.mvtype = ⟨true, false, false, false, false⟩)
    (small : i < 10 ^ 18) : Converted v i (xi82mval v i) := by
  unfold xi82mval
  split
  · rename_i few
    simp only [INT_HI] at few
    refine ⟨.inl ⟨by rw [mvtype], rfl, ?_⟩, ?_, by rw [mvtype]⟩
    · simp only [MV_BIAS, MANT_HI]
      split <;> omega
    · rw [Mval.value, if_pos rfl]
      simp only [MV_BIAS]
      cases v.sgn <;> simp [signFactor, neg_div]
  · rename_i large
    rw [not_lt] at large
    have million := large
    simp only [INT_HI] at million
    split
    · rename_i word
      simp only [MANT_HI] at word
      obtain ⟨k, high, low, scaled, count, high_lo, high_hi, low_hi, sum⟩ :=
        scaleWords_spec NUM_DEC_DG_1L i 0 EXP_IDX_BIAL (by decide)
          (by simp only [NUM_DEC_DG_1L]; omega) word (by decide)
      obtain ⟨same, zero⟩ := scaleWord_eq NUM_DEC_DG_1L i EXP_IDX_BIAL
      rw [scaled] at same zero
      dsimp only at zero
      subst zero
      rw [same]
      simp only [NUM_DEC_DG_1L] at count
      simp only [EXP_IDX_BIAL, MV_XBIAS]
      refine converted_of_words (k := k + 9) mvtype rfl ?_ rfl rfl (by omega) high_lo high_hi low_hi ?_ large
      · dsimp only
        omega
      · rw [sum, Nat.pow_add]
        ring
    · rename_i words
      split
      · rename_i fits
        simp only [MANT_HI] at words fits
        obtain ⟨k, high, low, scaled, count, high_lo, high_hi, low_hi, sum⟩ :=
          scaleWords_spec NUM_DEC_DG_1L (i / MANT_HI) (i % MANT_HI) (EXP_IDX_BIAL + 9)
            (Nat.mod_lt _ (by decide)) (by simp only [NUM_DEC_DG_1L, MANT_HI]; omega)
            (by simp only [MANT_HI]; omega) (by decide)
        rw [scaled]
        simp only [NUM_DEC_DG_1L] at count
        simp only [EXP_IDX_BIAL, MV_XBIAS]
        refine converted_of_words (k := k) mvtype rfl ?_ rfl rfl (by omega) high_lo high_hi low_hi ?_ large
        · dsimp only
        · have whole : i / MANT_HI * 10 ^ 9 + i % MANT_HI = i := Nat.div_add_mod' i MANT_HI
          rw [sum, whole]
      · rename_i long
        simp only [MANT_HI] at long
        omega

/-! ## Conversions there and back -/

/-- A canonical value is in `MV_INT` form exactly when it can be. -/
theorem Mval.Canonical.int_iff {w : Mval} (canonical : w.Canonical) :
    w.mvtype.int = true ↔ w.IntRepresentable := by
  rcases canonical with isInt | ⟨isFloat, not⟩
  · refine iff_of_true isInt.int ⟨w.m1, isInt.small, ?_⟩
    rw [Mval.value, if_pos isInt.int]
  · refine iff_of_false ?_ not
    rw [isFloat.int]
    decide

/-- A string that is used as a number becomes one in valid form. -/
theorem s2nNumber_form (tg : ThreadGbl) {u w : Mval} (isString : u.IsString)
    (returned : s2nNumber tg u = .ok w) : w.IsInt ∨ w.IsFloat := by
  obtain ⟨r, delivers⟩ := s2nNumber_delivers tg isString
  rw [returned] at delivers
  exact delivers.form

/-- What `MV_FORCE_NUM` leaves, when it is a number at all, is in valid form. -/
theorem mvForceNum_form {tg : ThreadGbl} {v w : Mval} (form : v.IsInt ∨ v.IsFloat ∨ v.IsString)
    (forced : mvForceNum tg v = .ok w) (isNumber : w.mvtype.nm = true) : w.IsInt ∨ w.IsFloat := by
  have number : v.mvtype.nm = true → w = v := by
    intro nm
    rw [mvForceNum, if_neg (by rw [nm]; decide)] at forced
    split at forced
    · cases forced
    · exact (Except.ok.inj forced).symm
  rcases form with isInt | isFloat | isString
  · rw [number isInt.nm]
    exact .inl isInt
  · rw [number isFloat.nm]
    exact .inr isFloat
  · rw [mvForceNum, if_pos (by rw [isString.mvtype])] at forced
    apply s2nNumber_form tg isString
    rw [s2nNumber]
    cases converted : s2n tg v with
    | error e =>
      rw [converted] at forced
      cases forced
    | ok r =>
      rw [converted] at forced
      obtain rfl := Except.ok.inj forced
      rw [numberOf, if_pos isNumber]

theorem mval2i8_eq (tg : ThreadGbl) {v w : Mval} (forced : mvForceNum tg v = .ok w)
    (form : w.IsInt ∨ w.IsFloat) (above : -2 ^ 63 ≤ towardZero w.value)
    (below : towardZero w.value < 2 ^ 63) : mval2i8 tg v = .ok (towardZero w.value) := by
  rw [mval2i8, forced]
  rcases form with isInt | isFloat
  · exact congrArg _ isInt.mval2i8Number_eq
  · exact congrArg _ (isFloat.mval2i8Number_eq above below)

theorem mval2i8_of_converted (tg : ThreadGbl) {v w : Mval} {i : Nat} {j : Int} (converted : Converted v i w)
    (small : i < 10 ^ 18) (same : signFactor v.sgn * (i : ℚ) = j) (magnitude : j.natAbs = i) :
    w.value = j ∧ (w.mvtype.int = true ↔ ∃ m : ℤ, m.natAbs < MANT_HI ∧ (j : ℚ) = m / MV_BIAS) ∧
      mval2i8 tg w = .ok j := by
  have value : w.value = j := converted.value.trans same
  have whole : towardZero w.value = j := by rw [value, towardZero_intCast]
  refine ⟨value, ?_, ?_⟩
  · rw [converted.canonical.int_iff, Mval.IntRepresentable, value]
  · rw [mval2i8_eq tg (mvForceNum_of_canonical tg converted.canonical converted.notNull)
      converted.canonical.form (by rw [whole]; omega) (by rw [whole]; omega), whole]

/-- An integer of at most eighteen digits becomes a canonical number of that value, and
comes back; and every number is converted to its whole part when this fits. -/
theorem integer_conversions_are_exact (tg : ThreadGbl) :
    (∀ (v : Mval) (i : Int), i.natAbs < 10 ^ 18 →
      (i82mval v i).Canonical ∧ (i82mval v i).value = i ∧
      ((i82mval v i).mvtype.int = true ↔ ∃ m : ℤ, m.natAbs < MANT_HI ∧ (i : ℚ) = m / MV_BIAS) ∧
      mval2i8 tg (i82mval v i) = .ok i) ∧
    (∀ (v : Mval) (i : Nat), i < 10 ^ 18 →
      (ui82mval v i).Canonical ∧ (ui82mval v i).value = i ∧
      ((ui82mval v i).mvtype.int = true ↔ ∃ m : ℤ, m.natAbs < MANT_HI ∧ (i : ℚ) = m / MV_BIAS) ∧
      mval2ui8 tg (ui82mval v i) = .ok i) ∧
    (∀ v w : Mval, v.IsInt ∨ v.IsFloat ∨ v.IsString → mvForceNum tg v = .ok w → w.mvtype.nm = true →
      -2 ^ 63 ≤ towardZero w.value → towardZero w.value < 2 ^ 63 →
      mval2i8 tg v = .ok (towardZero w.value)) := by
  refine ⟨?_, ?_, ?_⟩
  · intro v i small
    have converted : Converted _ _ (i82mval v i) := xi82mval_converted rfl small
    refine ⟨converted.canonical, mval2i8_of_converted tg converted small ?_ rfl⟩
    dsimp only
    by_cases negative : i < 0
    · rw [decide_eq_true negative, signFactor, neg_one_mul]
      have magnitude : (i.natAbs : ℤ) = -i := by omega
      rw [← Int.cast_natCast, magnitude, Int.cast_neg, neg_neg]
    · rw [decide_eq_false negative, signFactor, one_mul]
      have magnitude : (i.natAbs : ℤ) = i := by omega
      rw [← Int.cast_natCast, magnitude]
  · intro v i small
    have converted : Converted _ _ (ui82mval v i) := xi82mval_converted rfl small
    obtain ⟨value, int, back⟩ := mval2i8_of_converted tg converted small (j := i)
      (by rw [signFactor, one_mul, Int.cast_natCast]) (Int.natAbs_natCast i)
    refine ⟨converted.canonical, by rw [value, Int.cast_natCast], by rw [int, Int.cast_natCast], ?_⟩
    rw [mval2ui8, back]
    have bits : ((i : Int) % 2 ^ 64).toNat = i := by omega
    exact congrArg Except.ok bits
  · intro v w form forced isNumber above below
    exact mval2i8_eq tg forced (mvForceNum_form form forced isNumber) above below

/-- The largest and the smallest integers of eighteen digits. -/
theorem integer_conversions_at_eighteen_digits :
    mval2i8 ⟨false, false⟩ (i82mval literal_zero (-999999999999999999)) = .ok (-999999999999999999) ∧
      mval2ui8 ⟨false, false⟩ (ui82mval literal_zero 999999999999999999) = .ok 999999999999999999 ∧
      mval2i8 ⟨false, false⟩ ⟨⟨true, true, false, false, false⟩, false, 0, 0, -1500, []⟩ =
        .ok (towardZero (Mval.value ⟨⟨true, true, false, false, false⟩, false, 0, 0, -1500, []⟩)) := by
  obtain ⟨signed, unsigned, general⟩ := integer_conversions_are_exact ⟨false, false⟩
  refine ⟨(signed _ _ (by decide)).2.2.2, (unsigned _ _ (by decide)).2.2.2, ?_⟩
  have whole : towardZero (Mval.value ⟨⟨true, true, false, false, false⟩, false, 0, 0, -1500, []⟩) = -1 := by
    rw [Mval.value, if_pos rfl, towardZero_div]
    rfl
  exact general _ _ (.inl ⟨rfl, rfl, by decide⟩) rfl rfl (by rw [whole]; decide) (by rw [whole]; decide)

end Ydb
