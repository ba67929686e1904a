import Ydb.Division

/-!
# Modulo

`flt_mod` computes `u - v * floor(u / v)` from a quotient that is already truncated
to eighteen digits. It rounds the quotient down, in one of three ways by its
exponent, multiplies it back and subtracts, and both of these truncate again. On
rationals the routine is one formula. The exact modulus is compared with it: they
agree when the truncated quotient has the floor of the exact one and the exact
modulus has no digit below the window of the subtraction.
-/

namespace Ydb

open Lib

/-! ## The routine -/

/-- Biased exponent of a number that fills both words. -/
def EXP_IDX_BIAQ : Nat := 18 + MV_XBIAS

/-- The modulus of two `MV_INT` values. -/
def eb_int_mod (v1 u1 : Int) : Int :=
  if u1 = 0 ∨ v1 = 0 then 0
  else
    let quo := v1.tdiv u1
    let rat := v1 ≠ quo * u1
    let neg := (v1 < 0 ∧ 0 < u1) ∨ (0 < v1 ∧ u1 < 0)
    v1 - u1 * (quo - if neg ∧ rat then 1 else 0)

/-- Round the quotient `w` down to a whole number; `differ` says that the operands
have different signs. A floor of zero ends the routine. -/
def floorQuotient (differ : Bool) (w : Mval) : Option Mval :=
  if w.e ≤ MV_XBIAS then
    if differ ∧ w.m1 ≠ 0 ∧ EXPLO ≤ w.e then
      some { w with sgn := true, e := MV_XBIAS + 1, m1 := MANT_LO, m0 := 0 }
    else none
  else if w.e < EXP_IDX_BIAL then
    let z : Int := ten_pwr (EXP_IDX_BIAL - w.e)
    let x := w.m1.tdiv z * z
    if differ ∧ (w.m1 ≠ x ∨ w.m0 ≠ 0) then
      if MANT_HI ≤ x + z then
        some { w with m0 := (x + z).tmod 10 * MANT_LO, m1 := (x + z).tdiv 10, e := w.e + 1 }
      else some { w with m0 := 0, m1 := x + z }
    else some { w with m0 := 0, m1 := x }
  else if w.e < EXP_IDX_BIAQ then
    let z : Int := ten_pwr (EXP_IDX_BIAQ - w.e)
    let x := w.m0.tdiv z * z
    if differ ∧ w.m0 ≠ x then
      -- The carry may leave ten digits in the high word.
      if MANT_HI ≤ x + z then some { w with m0 := x + z - MANT_HI, m1 := w.m1 + 1 }
      else some { w with m0 := x + z }
    else some { w with m0 := x }
  else some w

section Routines

variable (eb_int_mul eb_mvint_div : Int → Int → Option Int)

/-- The modulus of `u` by `v`. `w` is the temporary of the routine, whose fields are
not initialised. -/
def flt_mod (tg : ThreadGbl) (u v w q : Mval) : Option (Except RtsError Mval) :=
  if u.mvtype.sqlnull || v.mvtype.sqlnull then some (.ok literalSqlnull)
  else
    match mvForceNum tg u, mvForceNum tg v with
    | .ok u, .ok v =>
      if v.mvtype.int && v.m1 = 0 then some (.error .divzero)
      else if u.mvtype.int && v.mvtype.int then
        some (.ok { q with mvtype := mvNmInt, m1 := eb_int_mod u.m1 v.m1 })
      else do
        let x := inFloatForm u
        let y := inFloatForm v
        match ← op_div eb_mvint_div tg x y w with
        | .error e => some (.error e)
        | .ok w =>
          match floorQuotient (x.sgn != y.sgn) (inFloatForm w) with
          | none => some (.ok { u with mvtype := ⟨u.mvtype.nm, u.mvtype.int, false, false, false⟩ })
          | some w =>
            match ← op_mul eb_int_mul tg w y w with
            | .error e => some (.error e)
            | .ok w => some (op_sub tg u w q)
    | .error e, _ => some (.error e)
    | .ok _, .error e => some (.error e)

end Routines

/-! ## The floor of a quotient -/

/-- How many times `unit` goes into `n`, rounded up for a negative number. -/
def wholeUnits (negative : Bool) (n unit : Nat) : Nat :=
  if negative ∧ n % unit ≠ 0 then n / unit + 1 else n / unit

theorem floor_signed (negative : Bool) (n : Nat) {unit : Nat} (positive : 0 < unit) :
    ((⌊signFactor negative * ((n : ℚ) / unit)⌋ : ℤ) : ℚ) =
      signFactor negative * wholeUnits negative n unit := by
  have unitPos : (0 : ℚ) < unit := by exact_mod_cast positive
  have parts : (n : ℚ) = unit * (n / unit : Nat) + (n % unit : Nat) := by
    exact_mod_cast (Nat.div_add_mod n unit).symm
  have rest : ((n % unit : Nat) : ℚ) < unit := by exact_mod_cast Nat.mod_lt n positive
  unfold wholeUnits
  generalize n / unit = whole at *
  generalize n % unit = left at *
  have quotient : (n : ℚ) / unit = whole + left / unit := by
    rw [parts, add_div, mul_div_cancel_left₀ _ unitPos.ne']
  have fraction : (left : ℚ) / unit < 1 := (div_lt_one unitPos).mpr rest
  have least : (0 : ℚ) ≤ (left : ℚ) / unit := div_nonneg (Nat.cast_nonneg _) unitPos.le
  rw [quotient]
  cases negative with
  | false =>
    have floor : ⌊(whole : ℚ) + left / unit⌋ = (whole : ℤ) := by
      rw [Int.floor_eq_iff, Int.cast_natCast]
      constructor <;> linarith
    rw [signFactor, one_mul, one_mul, floor, if_neg (by simp), Int.cast_natCast]
  | true =>
    rw [signFactor, neg_one_mul, neg_one_mul]
    by_cases exactly : left = 0
    · have floor : ⌊-((whole : ℚ) + left / unit)⌋ = -(whole : ℤ) := by
        rw [Int.floor_eq_iff, exactly, Nat.cast_zero, zero_div]
        push_cast
        constructor <;> linarith
      rw [floor, if_neg (by simp [exactly]), Int.cast_neg, Int.cast_natCast]
    · have some : (0 : ℚ) < (left : ℚ) / unit :=
        div_pos (by exact_mod_cast Nat.pos_of_ne_zero exactly) unitPos
      have floor : ⌊-((whole : ℚ) + left / unit)⌋ = -((whole + 1 : Nat) : ℤ) := by
        rw [Int.floor_eq_iff]
        push_cast
        constructor <;> linarith
      rw [floor, if_pos ⟨rfl, exactly⟩, Int.cast_neg, Int.cast_natCast]

/-- What the rounding leaves: a float with the sign of the quotient whose digits
are a whole number. -/
structure Rounded (w w' : Mval) (n : Nat) : Prop where
  carried : w'.IsCarried
  sgn : w'.sgn = w.sgn
  digits : w'.value = signFactor w.sgn * n

/-- Digits that are whole units denote their number. -/
theorem Mval.IsCarried.value_whole {w : Mval} (carried : w.IsCarried) (small : w.e ≤ EXP_IDX_BIAQ)
    {n : Nat} (whole : w.m1.toNat * 10 ^ 9 + w.m0.toNat = n * 10 ^ (EXP_IDX_BIAQ - w.e)) :
    w.value = signFactor w.sgn * n := by
  have scale : (10 : ℚ) ^ (EXP_IDX_BIAQ - w.e) * 10 ^ ((w.e : Int) - MV_XBIAS - 18) = 1 := by
    rw [← zpow_natCast, ← zpow_add₀ (by norm_num), Nat.cast_sub small]
    rw [show ((EXP_IDX_BIAQ : Nat) : Int) - w.e + ((w.e : Int) - MV_XBIAS - 18) = 0 by
      simp only [EXP_IDX_BIAQ, MV_XBIAS]; omega]
    exact zpow_zero _
  rw [carried.value_words, whole, Nat.cast_mul, Nat.cast_pow, Nat.cast_ofNat, mul_assoc (n : ℚ), scale,
    mul_one]

theorem Rounded.of_words {w : Mval} (isFloat : w.IsFloat) (notNull : w.mvtype.sqlnull = false)
    (m1 m0 : Nat) {e n : Nat} {high low : Int} (highEq : high = m1) (lowEq : low = m0) (lo : MANT_LO ≤ m1)
    (lowLt : m0 < MANT_HI) (fits : m1 * 10 ^ 9 + m0 ≤ 10 ^ 18) (small : e ≤ EXP_IDX_BIAQ)
    (whole : m1 * 10 ^ 9 + m0 = n * 10 ^ (EXP_IDX_BIAQ - e)) :
    Rounded w { w with e := e, m1 := high, m0 := low } n := by
  subst highEq lowEq
  have carried : Mval.IsCarried { w with e := e, m1 := (m1 : Int), m0 := (m0 : Int) } := by
    refine ⟨isFloat.nm, isFloat.int, notNull, Int.ofNat_le.mpr lo, Int.natCast_nonneg _,
      Int.ofNat_lt.mpr lowLt, ?_⟩
    simp only [MANT_HI]
    omega
  exact ⟨carried, rfl, carried.value_whole small whole⟩

/-- The units of two words, when a unit is a multiple of the high word's last digit. -/
theorem wholeUnits_high {a c z : Nat} (low : c < 10 ^ 9) (negative : Bool) (positive : 0 < z) :
    wholeUnits negative (a * 10 ^ 9 + c) (z * 10 ^ 9) =
      if negative ∧ (a ≠ a / z * z ∨ c ≠ 0) then a / z + 1 else a / z := by
  have quotient : (a * 10 ^ 9 + c) / (z * 10 ^ 9) = a / z := by
    rw [Nat.mul_comm z, ← Nat.div_div_eq_div_mul]
    congr 1
    omega
  have split := Nat.div_add_mod a z
  have remainder : (a * 10 ^ 9 + c) % (z * 10 ^ 9) = a % z * 10 ^ 9 + c := by
    have below : a % z * 10 ^ 9 + c < z * 10 ^ 9 := by
      have := Nat.mod_lt a positive
      omega
    have regrouped : a * 10 ^ 9 + c = a % z * 10 ^ 9 + c + z * 10 ^ 9 * (a / z) := by
      nth_rewrite 1 [← split]
      ring
    rw [regrouped, Nat.add_mul_mod_self_left, Nat.mod_eq_of_lt below]
  have whole : a = a / z * z ↔ a % z = 0 := by
    rw [Nat.mul_comm (a / z)]
    omega
  unfold wholeUnits
  rw [quotient, remainder]
  congr 1
  rw [eq_iff_iff, and_congr_right_iff]
  intro _
  rw [ne_eq, ne_eq, whole]
  omega

/-- The next unit above a word that is cut to whole units is a word, or full. -/
theorem cut_add_le {a n : Nat} (small : a < 10 ^ 9) (narrow : n ≤ 9) :
    a / 10 ^ n * 10 ^ n + 10 ^ n ≤ 10 ^ 9 := by
  have trailing : a / 10 ^ n + 1 ≤ 10 ^ (9 - n) := by
    apply Nat.div_lt_of_lt_mul
    rw [← Nat.pow_add, Nat.add_sub_cancel' narrow]
    exact small
  calc a / 10 ^ n * 10 ^ n + 10 ^ n = (a / 10 ^ n + 1) * 10 ^ n := by ring
    _ ≤ 10 ^ (9 - n) * 10 ^ n := Nat.mul_le_mul_right _ trailing
    _ = 10 ^ 9 := by rw [← Nat.pow_add, Nat.sub_add_cancel narrow]

/-- A quotient below `10^8` keeps its whole part in the high word. -/
theorem floorQuotient_high {w : Mval} (isFloat : w.IsFloat) (notNull : w.mvtype.sqlnull = false)
    (above : MV_XBIAS < w.e) (below : w.e < EXP_IDX_BIAL) :
    ∃ w', floorQuotient w.sgn w = some w' ∧
      Rounded w w' (wholeUnits w.sgn (w.m1.toNat * 10 ^ 9 + w.m0.toNat) (10 ^ (EXP_IDX_BIAQ - w.e))) := by
  obtain ⟨a, c, high, rest, lo, hi, low⟩ := isFloat.words
  have digits : w.m1.toNat * 10 ^ 9 + w.m0.toNat = a * 10 ^ 9 + c := by rw [high, rest]; rfl
  have range : 62 < w.e ∧ w.e < 71 := ⟨above, below⟩
  obtain ⟨n, reached, some, narrow⟩ : ∃ n, EXP_IDX_BIAL - w.e = n ∧ 1 ≤ n ∧ n ≤ 8 :=
    ⟨_, rfl, by simp only [EXP_IDX_BIAL, MV_XBIAS]; omega⟩
  have unit : 10 ^ (EXP_IDX_BIAQ - w.e) = 10 ^ n * 10 ^ 9 := by
    rw [← Nat.pow_add]
    congr 1
    simp only [EXP_IDX_BIAQ, EXP_IDX_BIAL, MV_XBIAS] at reached ⊢
    omega
  have power : ten_pwr (EXP_IDX_BIAL - w.e) = 10 ^ n := by rw [reached, ten_pwr_eq n (by omega)]
  have positive : 0 < 10 ^ n := Nat.pow_pos (by decide)
  -- The whole units leave a high word of nine digits, or of exactly ten.
  have least : 10 ^ 8 ≤ a / 10 ^ n * 10 ^ n := by
    have leading : 10 ^ (8 - n) ≤ a / 10 ^ n := by
      rw [Nat.le_div_iff_mul_le positive, ← Nat.pow_add, Nat.sub_add_cancel narrow]
      omega
    calc 10 ^ 8 = 10 ^ (8 - n) * 10 ^ n := by rw [← Nat.pow_add, Nat.sub_add_cancel narrow]
      _ ≤ a / 10 ^ n * 10 ^ n := Nat.mul_le_mul_right _ leading
  have most := cut_add_le hi (by omega : n ≤ 9)
  rw [digits, unit, wholeUnits_high low w.sgn positive]
  have cut : w.m1.tdiv (10 ^ n : Nat) * (10 ^ n : Nat) = ((a / 10 ^ n * 10 ^ n : Nat) : Int) := by
    rw [high, Int.natCast_mul, Int.ofNat_tdiv]
  unfold floorQuotient
  rw [if_neg (by omega), if_pos below, power]
  dsimp only
  rw [cut, high, rest]
  have nine : w.e ≤ EXP_IDX_BIAQ := by
    simp only [EXP_IDX_BIAQ, MV_XBIAS]
    omega
  simp only [ne_eq, Nat.cast_inj, Nat.cast_eq_zero]
  by_cases rounds : w.sgn = true ∧ (¬ a = a / 10 ^ n * 10 ^ n ∨ ¬ c = 0)
  · rw [if_pos rounds, if_pos rounds]
    by_cases full : (MANT_HI : Int) ≤ (a / 10 ^ n * 10 ^ n : Nat) + (10 ^ n : Nat)
    · rw [if_pos full]
      simp only [MANT_HI] at full
      have ten : ((a / 10 ^ n * 10 ^ n : Nat) : Int) + (10 ^ n : Nat) = 1000000000 := by omega
      have units : (a / 10 ^ n + 1) * 10 ^ n = 10 ^ 9 := by
        rw [Nat.add_mul, Nat.one_mul]
        omega
      rw [ten]
      refine ⟨_, rfl, Rounded.of_words isFloat notNull (10 ^ 8) 0 (by decide) (by decide)
        (by decide) (by decide) (by decide) ?_ ?_⟩
      · simp only [EXP_IDX_BIAQ, MV_XBIAS]
        omega
      · have shifted : 10 ^ n * 10 ^ 9 = 10 ^ (EXP_IDX_BIAQ - (w.e + 1)) * 10 := by
          rw [← unit, ← Nat.pow_succ]
          congr 1
          simp only [EXP_IDX_BIAQ, MV_XBIAS]
          omega
        apply Nat.eq_of_mul_eq_mul_right (by decide : 0 < 10)
        rw [Nat.mul_assoc _ _ 10, ← shifted, ← Nat.mul_assoc, units]
        norm_num
    · rw [if_neg full]
      refine ⟨_, rfl, Rounded.of_words isFloat notNull (a / 10 ^ n * 10 ^ n + 10 ^ n) 0
        (by push_cast; rfl) rfl (by simp only [MANT_LO]; omega) (by decide) (by omega) nine ?_⟩
      rw [unit]
      ring
  · rw [if_neg rounds, if_neg rounds]
    refine ⟨_, rfl, Rounded.of_words isFloat notNull (a / 10 ^ n * 10 ^ n) 0 rfl rfl
      (by simp only [MANT_LO]; omega) (by decide) (by omega) nine ?_⟩
    rw [unit]
    ring

/-- The units of two words, when a unit divides the low word's width. -/
theorem wholeUnits_low {a c z y : Nat} (width : z * y = 10 ^ 9) (negative : Bool) (positive : 0 < z) :
    wholeUnits negative (a * 10 ^ 9 + c) z =
      if negative ∧ c ≠ c / z * z then a * y + c / z + 1 else a * y + c / z := by
  have regrouped : a * 10 ^ 9 + c = c + z * (a * y) := by
    rw [← width]
    ring
  have whole : c = c / z * z ↔ c % z = 0 := by
    have split := Nat.div_add_mod c z
    rw [Nat.mul_comm (c / z)]
    omega
  unfold wholeUnits
  rw [regrouped, Nat.add_mul_div_left _ _ positive, Nat.add_mul_mod_self_left, Nat.add_comm (c / z)]
  congr 1
  rw [eq_iff_iff, and_congr_right_iff]
  intro _
  rw [ne_eq, ne_eq, whole]

/-- A quotient from `10^8` on has its point in the low word. -/
theorem floorQuotient_low {w : Mval} (isFloat : w.IsFloat) (notNull : w.mvtype.sqlnull = false)
    (above : EXP_IDX_BIAL ≤ w.e) (below : w.e < EXP_IDX_BIAQ) :
    ∃ w', floorQuotient w.sgn w = some w' ∧
      Rounded w w' (wholeUnits w.sgn (w.m1.toNat * 10 ^ 9 + w.m0.toNat) (10 ^ (EXP_IDX_BIAQ - w.e))) := by
  obtain ⟨a, c, high, rest, lo, hi, low⟩ := isFloat.words
  have digits : w.m1.toNat * 10 ^ 9 + w.m0.toNat = a * 10 ^ 9 + c := by rw [high, rest]; rfl
  have range : 71 ≤ w.e ∧ w.e < 80 := ⟨above, below⟩
  obtain ⟨n, reached, some, narrow⟩ : ∃ n, EXP_IDX_BIAQ - w.e = n ∧ 1 ≤ n ∧ n ≤ 9 :=
    ⟨_, rfl, by simp only [EXP_IDX_BIAQ, MV_XBIAS]; omega⟩
  have power : ten_pwr (EXP_IDX_BIAQ - w.e) = 10 ^ n := by rw [reached, ten_pwr_eq n narrow]
  have positive : 0 < 10 ^ n := Nat.pow_pos (by decide)
  have width : 10 ^ n * 10 ^ (9 - n) = 10 ^ 9 := by rw [← Nat.pow_add, show n + (9 - n) = 9 by omega]
  have most := cut_add_le low narrow
  have cut : w.m0.tdiv (10 ^ n : Nat) * (10 ^ n : Nat) = ((c / 10 ^ n * 10 ^ n : Nat) : Int) := by
    rw [rest, Int.natCast_mul, Int.ofNat_tdiv]
  have units : (a * 10 ^ (9 - n) + c / 10 ^ n) * 10 ^ n = a * 10 ^ 9 + c / 10 ^ n * 10 ^ n := by
    rw [← width]
    ring
  have large : MANT_LO ≤ a := by
    simp only [MANT_LO]
    omega
  rw [digits, reached, wholeUnits_low width w.sgn positive]
  unfold floorQuotient
  rw [if_neg (by simp only [MV_XBIAS]; omega), if_neg (by omega), if_pos below, power]
  dsimp only
  rw [cut, high, rest]
  simp only [ne_eq, Nat.cast_inj]
  by_cases rounds : w.sgn = true ∧ ¬ c = c / 10 ^ n * 10 ^ n
  · have next : (a * 10 ^ (9 - n) + c / 10 ^ n + 1) * 10 ^ n =
        a * 10 ^ 9 + (c / 10 ^ n * 10 ^ n + 10 ^ n) := by
      rw [Nat.add_mul, units]
      ring
    rw [if_pos rounds, if_pos rounds]
    by_cases full : (MANT_HI : Int) ≤ (c / 10 ^ n * 10 ^ n : Nat) + (10 ^ n : Nat)
    · rw [if_pos full]
      simp only [MANT_HI] at full
      have ten : c / 10 ^ n * 10 ^ n + 10 ^ n = 10 ^ 9 := by omega
      refine ⟨_, rfl, Rounded.of_words isFloat notNull (a + 1) 0 rfl ?_ (by omega) (by decide)
        (by omega) below.le ?_⟩
      · simp only [MANT_HI]
        omega
      · rw [reached, next, ten]
        ring
    · rw [if_neg full]
      simp only [MANT_HI] at full
      refine ⟨_, rfl, Rounded.of_words isFloat notNull a (c / 10 ^ n * 10 ^ n + 10 ^ n) rfl
        (by push_cast; rfl) large (by simp only [MANT_HI]; omega) (by omega) below.le ?_⟩
      rw [reached, next]
  · rw [if_neg rounds, if_neg rounds]
    refine ⟨_, rfl, Rounded.of_words isFloat notNull a (c / 10 ^ n * 10 ^ n) rfl rfl large
      (by simp only [MANT_HI]; omega) (by omega) below.le ?_⟩
    rw [reached, units]

/-- The magnitude of a float, by its exponent. -/
theorem Mval.IsFloat.value_bounds {w : Mval} (isFloat : w.IsFloat) :
    (10 : ℚ) ^ ((w.e : Int) - MV_XBIAS - 1) ≤ |w.value| ∧ |w.value| < 10 ^ ((w.e : Int) - MV_XBIAS) := by
  rw [← isFloat.toDecimal_value, Decimal.value_abs]
  exact isFloat.toDecimal.value_abs_bounds

/-- The quotient is rounded down. -/
theorem floorQuotient_spec {w : Mval} (isFloat : w.IsFloat) (notNull : w.mvtype.sqlnull = false)
    (below : w.e < EXP_IDX_BIAQ) :
    (⌊w.value⌋ = 0 ∧ floorQuotient w.sgn w = none) ∨
      (⌊w.value⌋ ≠ 0 ∧ ∃ w', floorQuotient w.sgn w = some w' ∧ w'.IsCarried ∧ w'.value = ⌊w.value⌋) := by
  obtain ⟨least, most⟩ := isFloat.value_bounds
  have sign := isFloat.sgn_iff
  by_cases fraction : w.e ≤ MV_XBIAS
  · have small : |w.value| < 1 := by
      apply lt_of_lt_of_le most
      rw [← zpow_zero (10 : ℚ)]
      exact zpow_le_zpow_right₀ (by norm_num) (by omega)
    rw [abs_lt] at small
    cases negative : w.sgn with
    | false =>
      left
      have nonneg : 0 ≤ w.value := by
        rw [← not_lt, ← sign, negative]
        exact Bool.false_ne_true
      refine ⟨Int.floor_eq_zero_iff.mpr ⟨nonneg, small.2⟩, ?_⟩
      rw [floorQuotient, if_pos fraction, if_neg (by simp)]
    | true =>
      right
      have below := sign.mp negative
      have floor : ⌊w.value⌋ = -1 := by
        rw [Int.floor_eq_iff]
        push_cast
        constructor <;> linarith
      have digits : w.m1 ≠ 0 := by
        have := isFloat.m1_lo
        simp only [MANT_LO] at this
        omega
      rw [floor]
      refine ⟨by decide, _, by rw [floorQuotient, if_pos fraction, if_pos ⟨rfl, digits, isFloat.e_lo⟩], ?_, ?_⟩
      · refine ⟨isFloat.nm, isFloat.int, notNull, le_refl _, le_refl _, ?_, ?_⟩
        · simp [MANT_HI]
        · simp [MANT_HI, MANT_LO]
      · norm_num [Mval.value, isFloat.int, signFactor, MANT_LO, MANT_HI, MV_XBIAS]
  · right
    rw [not_le] at fraction
    have large : (1 : ℚ) ≤ |w.value| := by
      apply le_trans _ least
      rw [← zpow_zero (10 : ℚ)]
      exact zpow_le_zpow_right₀ (by norm_num) (by omega)
    have nonzero : ⌊w.value⌋ ≠ 0 := by
      intro zero
      obtain ⟨nonneg, less⟩ := Int.floor_eq_zero_iff.mp zero
      rw [abs_of_nonneg nonneg] at large
      linarith
    obtain ⟨w', found, rounded⟩ : ∃ w', floorQuotient w.sgn w = some w' ∧ Rounded w w'
        (wholeUnits w.sgn (w.m1.toNat * 10 ^ 9 + w.m0.toNat) (10 ^ (EXP_IDX_BIAQ - w.e))) := by
      by_cases high : w.e < EXP_IDX_BIAL
      · exact floorQuotient_high isFloat notNull fraction high
      · exact floorQuotient_low isFloat notNull (not_lt.mp high) below
    refine ⟨nonzero, w', found, rounded.carried, ?_⟩
    have quotient : w.value = signFactor w.sgn * (((w.m1.toNat * 10 ^ 9 + w.m0.toNat : Nat) : ℚ) /
        ((10 ^ (EXP_IDX_BIAQ - w.e) : Nat) : ℚ)) := by
      rw [isFloat.value_words, Nat.cast_pow, Nat.cast_ofNat, div_eq_mul_inv, ← zpow_natCast, ← zpow_neg,
        Nat.cast_sub below.le]
      congr 3
      simp only [EXP_IDX_BIAQ, MV_XBIAS]
      omega
    rw [rounded.digits, quotient, floor_signed w.sgn _ (Nat.pow_pos (by decide))]

/-! ## The routine on rationals -/

/-- The floor that the routine finds: of the quotient in eighteen digits, and zero
for a quotient that vanishes. -/
def foundFloor (x y : ℚ) : ℤ :=
  if exponent 10 (x / y) + MV_XBIAS < EXPLO then 0 else ⌊truncateTo 10 18 (x / y)⌋

/-- A number in float form: a float, or the literal zero. -/
theorem inFloatForm_cases {v : Mval} (form : v.IsInt ∨ v.IsFloat) :
    (v.value = 0 ∧ inFloatForm v = literal_zero) ∨
      (v.value ≠ 0 ∧ (inFloatForm v).IsFloat ∧ (inFloatForm v).value = v.value) := by
  by_cases zero : v.value = 0
  · left
    refine ⟨zero, ?_⟩
    rcases v.form_cases form with ⟨_, isInt, digits⟩ | ⟨d, value, _⟩
    · rw [inFloatForm, if_pos isInt.int, promote, if_pos digits]
    · exact absurd (value.trans zero) d.value_ne_zero
  · exact .inr ⟨zero, inFloatForm_isFloat form zero⟩

theorem inFloatForm_of_float {v : Mval} (isFloat : v.IsFloat) : inFloatForm v = v := by
  rw [inFloatForm, isFloat.int, if_neg Bool.false_ne_true]

/-- A stored number is not null. -/
theorem storeExtended_notNull {p w : Mval} {sgn : Bool} {exp : Int} {m1 m0 : Nat}
    (stored : storeExtended p sgn exp m1 m0 = .ok w) : w.mvtype.sqlnull = false := by
  unfold storeExtended at stored
  dsimp only at stored
  split at stored
  · cases stored
  · split at stored
    · cases stored
      rfl
    · split at stored
      · cases stored
        rfl
      · split at stored
        · cases stored
          rfl
        · cases stored
          rfl

theorem assertMantissa_some {outcome : Except RtsError Mval} {w : Mval}
    (asserted : assertMantissa outcome = some (.ok w)) : outcome = .ok w := by
  unfold assertMantissa at asserted
  split at asserted
  · cases asserted
  · split at asserted
    · cases asserted
      rfl
    · cases asserted

theorem divExtended_notNull {u v q w : Mval} (returned : divExtended u v q = some (.ok w)) :
    w.mvtype.sqlnull = false := by
  unfold divExtended at returned
  split at returned
  · cases returned
  · obtain ⟨⟨c, m1, m0⟩, _, stored⟩ := Option.bind_eq_some_iff.mp returned
    exact storeExtended_notNull (assertMantissa_some stored)

theorem mulExtended_notNull {u v p w : Mval} (returned : mulExtended u v p = some (.ok w)) :
    w.mvtype.sqlnull = false := by
  obtain ⟨⟨c, m1, m0⟩, _, stored⟩ := Option.bind_eq_some_iff.mp returned
  exact storeExtended_notNull (assertMantissa_some stored)

/-- The signs of two floats differ when their quotient is negative. -/
theorem signs_differ {u v : Mval} (uFloat : u.IsFloat) (vFloat : v.IsFloat) :
    (u.sgn != v.sgn) = true ↔ u.value / v.value < 0 := by
  have uNonzero : u.value ≠ 0 := by
    rw [← uFloat.toDecimal_value]
    exact Decimal.value_ne_zero _
  have vNonzero : v.value ≠ 0 := by
    rw [← vFloat.toDecimal_value]
    exact Decimal.value_ne_zero _
  rw [bne_iff_ne, ne_eq, Bool.eq_iff_iff, uFloat.sgn_iff, vFloat.sgn_iff, div_neg_iff]
  rcases lt_or_gt_of_ne uNonzero with uNeg | uPos
  · rcases lt_or_gt_of_ne vNonzero with vNeg | vPos
    · simp [uNeg, vNeg, not_lt.mpr uNeg.le, not_lt.mpr vNeg.le]
    · simp [uNeg, vPos, not_lt.mpr vPos.le]
  · rcases lt_or_gt_of_ne vNonzero with vNeg | vPos
    · simp [uPos, vNeg, not_lt.mpr uPos.le]
    · simp [not_lt.mpr uPos.le, not_lt.mpr vPos.le]

/-- Truncation keeps the sign. -/
theorem truncateTo_neg_iff {q : ℚ} : truncateTo 10 18 q < 0 ↔ q < 0 := by
  by_cases zero : q = 0
  · rw [zero, truncateTo_zero]
  · obtain ⟨kept, _⟩ := exponent_truncateTo (b := 10) (n := 18) (by decide) (by decide) zero
    constructor
    · intro negative
      by_contra nonneg
      rw [not_lt] at nonneg
      have := truncateAt_nonneg (b := 10) (by decide) (exponent 10 q - (18 : ℕ)) nonneg
      rw [truncateTo] at negative
      linarith
    · intro negative
      have mirrored := truncateAt_nonneg (b := 10) (by decide) (exponent 10 q - (18 : ℕ))
        (by linarith : 0 ≤ -q)
      rw [truncateAt_neg] at mirrored
      apply lt_of_le_of_ne _ kept
      rw [truncateTo]
      linarith

/-- The quotient of two values in float form, and its floor. -/
theorem quotient_floor (eb_mvint_div : Int → Int → Option Int) (tg : ThreadGbl) {u v : Mval}
    (uForm : u.IsInt ∨ u.IsFloat) (uNotNull : u.mvtype.sqlnull = false) (vFloat : v.IsFloat)
    (vNotNull : v.mvtype.sqlnull = false) (small : |u.value / v.value| < 10 ^ 17) (w : Mval) :
    ∃ w', op_div eb_mvint_div tg (inFloatForm u) v w = some (.ok w') ∧
      ((foundFloor u.value v.value = 0 ∧
          floorQuotient ((inFloatForm u).sgn != v.sgn) (inFloatForm w') = none) ∨
        (foundFloor u.value v.value ≠ 0 ∧
          ∃ w'', floorQuotient ((inFloatForm u).sgn != v.sgn) (inFloatForm w') = some w'' ∧
            w''.IsCarried ∧ w''.value = foundFloor u.value v.value)) := by
  have nowhere : ∀ differ, floorQuotient differ literal_zero = none := by
    intro differ
    rw [floorQuotient, if_pos (by decide), if_neg (by simp [literal_zero])]
  rcases inFloatForm_cases uForm with ⟨zero, form⟩ | ⟨nonzero, uFloat, uValue⟩
  · have found : foundFloor u.value v.value = 0 := by
      rw [foundFloor, zero, zero_div, truncateTo_zero, Int.floor_zero, ite_self]
    refine ⟨literal_zero, ?_, .inl ⟨found, nowhere _⟩⟩
    rw [form, op_div_eq eb_mvint_div tg rfl rfl vFloat vNotNull]
    exact divExtended_zero vFloat w
  · have uNull := inFloatForm_notNull uNotNull
    have vNonzero : v.value ≠ 0 := by
      rw [← vFloat.toDecimal_value]
      exact Decimal.value_ne_zero _
    obtain ⟨outcome, returned, delivers⟩ := divExtended_delivers uFloat vFloat w
    rw [op_div_eq eb_mvint_div tg uFloat.nm uNull vFloat vNotNull, inFloatForm_of_float uFloat, returned]
    rw [uValue] at delivers
    have quotient : u.value / v.value ≠ 0 := div_ne_zero nonzero vNonzero
    obtain ⟨kept, exponents⟩ :=
      exponent_truncateTo (b := 10) (n := 18) (by decide) (by decide) quotient
    have fits : exponent 10 (u.value / v.value) ≤ 17 :=
      exponent_le (by decide) quotient (by rw [Nat.cast_ofNat]; exact_mod_cast small)
    by_cases vanishes : exponent 10 (u.value / v.value) + MV_XBIAS < EXPLO
    · obtain ⟨w', rfl, isInt, digits⟩ := delivers.vanished (.inr (by rwa [exponents]))
      have form : inFloatForm w' = literal_zero := by
        rw [inFloatForm, if_pos isInt.int, promote, if_pos digits]
      refine ⟨w', rfl, .inl ⟨if_pos vanishes, ?_⟩⟩
      rw [form]
      exact nowhere _
    · have found : foundFloor u.value v.value = ⌊truncateTo 10 18 (u.value / v.value)⌋ := if_neg vanishes
      rw [not_lt] at vanishes
      obtain ⟨w', rfl, canonical, value⟩ := delivers.number kept (by rwa [exponents])
        (by rw [exponents]; simp only [MV_XBIAS, EXPHI]; omega)
      obtain ⟨wFloat, wValue⟩ := inFloatForm_isFloat canonical.form (by rwa [value])
      rw [value] at wValue
      have sign : ((inFloatForm u).sgn != v.sgn) = (inFloatForm w').sgn := by
        rw [Bool.eq_iff_iff, signs_differ uFloat vFloat, wFloat.sgn_iff, wValue, uValue, truncateTo_neg_iff]
      have below : (inFloatForm w').e < EXP_IDX_BIAQ := by
        have reached : exponent 10 (inFloatForm w').value = ((inFloatForm w').e : Int) - 62 := by
          rw [← wFloat.toDecimal_value]
          exact wFloat.toDecimal.exponent_value
        rw [wValue, exponents] at reached
        simp only [EXP_IDX_BIAQ, MV_XBIAS]
        omega
      refine ⟨w', rfl, ?_⟩
      rw [found, sign, ← wValue]
      exact floorQuotient_spec wFloat (inFloatForm_notNull (divExtended_notNull returned)) below

theorem Mval.IsFloat.exponent_value {v : Mval} (isFloat : v.IsFloat) :
    exponent 10 v.value = (v.e : Int) - MV_XBIAS := by
  rw [← isFloat.toDecimal_value]
  exact isFloat.toDecimal.exponent_value

/-- A whole multiple other than zero is no smaller. -/
theorem abs_le_mul_int {k : ℤ} (nonzero : k ≠ 0) (y : ℚ) : |y| ≤ |(k : ℚ) * y| := by
  have whole : (1 : ℚ) ≤ |(k : ℚ)| := by exact_mod_cast Int.one_le_abs nonzero
  rw [abs_mul]
  exact le_mul_of_one_le_left (abs_nonneg y) whole

/-- What the routine returns for operands not both in `MV_INT` form: the dividend
where the found floor is zero, and the aligned difference of the dividend and the
truncated product elsewhere. -/
structure ModOutcome (x y : ℚ) (outcome : Except RtsError Mval) : Prop where
  whole : foundFloor x y = 0 → ∃ r, outcome = .ok r ∧ r.value = x
  overflow : foundFloor x y ≠ 0 → (EXPHI : Int) ≤ exponent 10 (foundFloor x y * y) + MV_XBIAS →
    outcome = .error .numoflow
  difference : foundFloor x y ≠ 0 → exponent 10 (foundFloor x y * y) + MV_XBIAS < EXPHI →
    Delivers (alignedSum x (-truncateTo 10 18 (foundFloor x y * y))) outcome

/-- The floor of the quotient, where an operand is a float. -/
theorem flt_mod_mixed (eb_int_mul eb_mvint_div : Int → Int → Option Int) (tg : ThreadGbl) {u v : Mval}
    (uCanonical : u.Canonical) (vCanonical : v.Canonical) (uNotNull : u.mvtype.sqlnull = false)
    (vNotNull : v.mvtype.sqlnull = false) (vNonzero : v.value ≠ 0)
    (small : |u.value / v.value| < 10 ^ 17) (mixed : (u.mvtype.int && v.mvtype.int) = false) (w q : Mval) :
    ∃ outcome, flt_mod eb_int_mul eb_mvint_div tg u v w q = some outcome ∧
      ModOutcome u.value v.value outcome := by
  obtain ⟨vFloat, vValue⟩ := inFloatForm_isFloat vCanonical.form vNonzero
  have vNull := inFloatForm_notNull vNotNull
  have divisor : ¬ (v.mvtype.int && decide (v.m1 = 0)) = true := by
    rw [Bool.and_eq_true, decide_eq_true_eq]
    rintro ⟨isInt, m1⟩
    apply vNonzero
    simp [Mval.value, isInt, m1]
  obtain ⟨w', divided, floors⟩ := quotient_floor eb_mvint_div tg uCanonical.form uNotNull vFloat vNull
    (by rwa [vValue]) w
  rw [vValue] at floors
  unfold flt_mod
  simp only [uNotNull, vNotNull, Bool.or_self, Bool.false_eq_true, if_false,
    mvForceNum_of_canonical tg uCanonical uNotNull, mvForceNum_of_canonical tg vCanonical vNotNull,
    if_neg divisor, mixed, divided, Option.bind_eq_bind, Option.bind_some]
  rcases floors with ⟨zero, found⟩ | ⟨nonzero, w'', found, carried, value⟩
  · rw [found]
    exact ⟨_, rfl, fun _ => ⟨_, rfl, rfl⟩, fun nonzero => absurd zero nonzero,
      fun nonzero => absurd zero nonzero⟩
  · rw [found]
    dsimp only
    obtain ⟨outcome, multiplied, delivers⟩ := mulExtended_delivers carried vFloat w''
    rw [op_mul_eq eb_int_mul tg carried vFloat vNull, multiplied]
    rw [value, vValue] at delivers
    obtain ⟨k, floor⟩ : ∃ k, foundFloor u.value v.value = k := ⟨_, rfl⟩
    rw [floor] at delivers nonzero
    have product : (k : ℚ) * v.value ≠ 0 := mul_ne_zero (by exact_mod_cast nonzero) vNonzero
    obtain ⟨kept, exponents⟩ :=
      exponent_truncateTo (b := 10) (n := 18) (by decide) (by decide) product
    have least : (EXPLO : Int) ≤ exponent 10 ((k : ℚ) * v.value) + MV_XBIAS := by
      have grown := exponent_mono (b := 10) (by decide) vNonzero (abs_le_mul_int nonzero v.value)
      have lowest := vFloat.e_lo
      rw [← vValue, vFloat.exponent_value, vValue] at grown
      omega
    by_cases overflows : (EXPHI : Int) ≤ exponent 10 ((k : ℚ) * v.value) + MV_XBIAS
    · rw [delivers.overflow (by rwa [exponents])]
      refine ⟨_, rfl, fun zero => absurd (floor.symm.trans zero) nonzero, fun _ _ => rfl, fun _ below => ?_⟩
      rw [floor] at below
      exact absurd overflows (not_le.mpr below)
    · rw [not_le] at overflows
      obtain ⟨p, rfl, canonical, product⟩ := delivers.number kept (by rwa [exponents]) (by rwa [exponents])
      refine ⟨_, rfl, fun zero => absurd (floor.symm.trans zero) nonzero, fun _ above => ?_, fun _ _ => ?_⟩
      · rw [floor] at above
        exact absurd overflows (not_lt.mpr above)
      · have difference := addOrSubtract_delivers tg uCanonical canonical uNotNull
          (mulExtended_notNull multiplied) true q
        rwa [if_pos rfl, product, ← floor] at difference

end Ydb
