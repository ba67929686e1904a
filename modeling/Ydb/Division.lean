import Ydb.Multiplication

/-!
# Extended division

`eb_div` divides by long division on limbs of base `RADIX`. It estimates each limb
of the quotient from the two leading limbs of the remainder and the leading limb
of the divisor, subtracts, and adds the divisor back while the remainder is
negative. As in the multiplication, a value outside `int4` and a failing assertion
give `none`.

The dividend `yx` is kept as the window of five limbs that a round works on, the
limb above the window and the limbs below it. After a round the limb above is
zero, and the window moves down by one limb.
-/

namespace Ydb

open Lib

/-! ## The routine -/

/-- Break apart 4-4-1/3-4-2. -/
def breakLong (w1 w0 : Nat) : List Nat :=
  [w0 % (RADIX / 100) * 100, w0 / (RADIX / 100) % RADIX,
    w1 % (RADIX / 1000) * (RADIX / 10) + w0 / (RADIX / 100 * RADIX),
    w1 / (RADIX / 1000) % RADIX, w1 / (RADIX / 1000 * RADIX)]

/-- Break apart 3-4-2/2-4-3. -/
def breakShort (w1 w0 : Nat) : List Nat :=
  [w0 % (RADIX / 10) * 10, w0 / (RADIX / 10) % RADIX,
    w1 % (RADIX / 100) * (RADIX / 100) + w0 / (RADIX / 10 * RADIX),
    w1 / (RADIX / 100) % RADIX, w1 / (RADIX / 100 * RADIX)]

/-- Multiply the divisor by the limb `q` and subtract it from the window. -/
def subtractRow (q : Nat) : Nat → List Nat → List Nat → Option (List Nat × Nat)
  | borrow, [], [] => some ([], borrow)
  | borrow, x :: xx, y :: yx => do
    let prod ← int4 (q * x + borrow)
    let y : Int := y - (prod % RADIX : Nat)
    let borrow := prod / RADIX
    let (limb, borrow) := if y < 0 then ((y + RADIX).toNat, borrow + 1) else (y.toNat, borrow)
    let (limbs, out) ← subtractRow q borrow xx yx
    return (limb :: limbs, out)
  | _, _, _ => none

/-- Add the divisor to the window. -/
def restoreRow : Nat → List Nat → List Nat → Option (List Nat × Nat)
  | carry, [], [] => some ([], carry)
  | carry, x :: xx, y :: yx => do
    let acc ← int4 (y + (x + carry))
    let (limbs, out) ← restoreRow (acc / RADIX) xx yx
    return (acc % RADIX :: limbs, out)
  | _, _, _ => none

/-- While the remainder is negative, lower the quotient limb and add the divisor
back. A quotient limb that would become negative fails its assertion. -/
def addBack (xx : List Nat) : Nat → List Nat → Int → Option (Nat × List Nat × Int)
  | 0, yx, top => if top < 0 then none else some (0, yx, top)
  | q + 1, yx, top =>
    if top < 0 then do
      let (yx, carry) ← restoreRow 0 xx yx
      addBack xx q yx (top + carry)
    else some (q + 1, yx, top)

/-- One limb of the quotient, and the remainder it leaves in the window. -/
def divRound (xx yx : List Nat) (top : Nat) : Option (Nat × List Nat) := do
  let lead := xx.getLastD 0
  let leading ← int4 (top * RADIX + yx.getLastD 0)
  if lead = 0 then none
  else
    let q := leading / lead
    if q ≠ 0 then
      let (yx, borrow) ← subtractRow q 0 xx yx
      let (q, yx, top) ← addBack xx q yx (top - (borrow : Int))
      if q < RADIX ∧ top = 0 then some (q, yx) else none
    else if top = 0 then some (0, yx) else none

/-- The limbs of the quotient, the least significant first. -/
def divRounds (xx : List Nat) : List Nat → List Nat → Nat → Option (List Nat)
  | [], yx, top => do
    let (q, _) ← divRound xx yx top
    return [q]
  | next :: lower, yx, top => do
    let (q, yx) ← divRound xx yx top
    let qx ← divRounds xx lower (next :: yx.dropLast) (yx.getLastD 0)
    return qx ++ [q]

/-- The scale factor of the quotient `y / x` and its two words. -/
def eb_div (x1 x0 y1 y0 : Nat) : Option (Int × Nat × Nat) := do
  let above := x1 < y1 ∨ (x1 = y1 ∧ x0 ≤ y0)
  let yx := if above then breakShort y1 y0 else breakLong y1 y0
  let xx := breakLong x1 x0
  if yx.getLastD 0 ≤ xx.getLastD 0 then
    let qx ← divRounds xx [0, 0, 0, 0] (0 :: yx.dropLast) (yx.getLastD 0)
    match qx with
    | [qx0, qx1, qx2, qx3, qx4] =>
      let q0 ← int4 ((qx2 % 1000 * RADIX + qx1) * 100 + qx0 / 100)
      let q1 ← int4 ((qx4 * RADIX + qx3) * 10 + qx2 / 1000)
      if (MANT_LO ≤ q1 ∧ q1 < MANT_HI) ∨ (q1 = 0 ∧ q0 = 0 ∧ y1 = 0 ∧ y0 = 0) then
        return (if above then 1 else 0, q1, q0)
      else none
    | _ => none
  else none

/-- The quotient of two values in float form. Operands with the exponent of an
overflow are reported first. -/
def divExtended (u v q : Mval) : Option (Except RtsError Mval) :=
  if EXPHI ≤ v.e ∨ EXPHI ≤ u.e then some (.error .numoflow)
  else do
    let (c, m1, m0) ← eb_div v.m1.toNat v.m0.toNat u.m1.toNat u.m0.toNat
    assertMantissa (storeExtended q (u.sgn ^^ v.sgn) (u.e - v.e + c + MV_XBIAS) m1 m0)

section Routines

-- `eb_mvint_div` divides two `MV_INT` values in floating point and reports whether
-- they have to be promoted.
variable (eb_mvint_div : Int → Int → Option Int)

/-- Divide, with both numbers forced. -/
def op_div (tg : ThreadGbl) (u v q : Mval) : Option (Except RtsError Mval) :=
  if u.mvtype.sqlnull || v.mvtype.sqlnull then some (.ok literalSqlnull)
  else
    match mvForceNum tg u, mvForceNum tg v with
    | .ok u, .ok v =>
      if v.mvtype.int = false ∧ v.m0 = 0 ∧ v.m1 = 0 then none
      else if v.mvtype.int && v.m1 = 0 then some (.error .divzero)
      else if u.mvtype.int && v.mvtype.int then
        match eb_mvint_div u.m1 v.m1 with
        | some m1 => some (.ok { q with mvtype := mvNmInt, m0 := 0, m1 := m1 })
        | none => divExtended (promote u) (promote v) q
      else divExtended (inFloatForm u) (inFloatForm v) q
    | .error e, _ => some (.error e)
    | .ok _, .error e => some (.error e)

end Routines

/-! ## Rows -/

/-- The limbs are the words, two digits up. -/
theorem breakLong_spec (w1 w0 : Nat) (high : w1 < 10 ^ 9) (low : w0 < 10 ^ 9) :
    Nat.ofDigits RADIX (breakLong w1 w0) = (w1 * 10 ^ 9 + w0) * 100 ∧
      Limbs RADIX (breakLong w1 w0) := by
  constructor
  · simp only [breakLong, RADIX, Nat.ofDigits_cons, Nat.ofDigits_nil]
    norm_num
    omega
  · intro d listed
    simp only [breakLong, RADIX, List.mem_cons, List.not_mem_nil, or_false] at listed ⊢
    omega

/-- The limbs are the words, one digit up. -/
theorem breakShort_spec {w1 w0 : Nat} (high : w1 < 10 ^ 9) (low : w0 < 10 ^ 9) :
    Nat.ofDigits RADIX (breakShort w1 w0) = (w1 * 10 ^ 9 + w0) * 10 ∧
      Limbs RADIX (breakShort w1 w0) := by
  constructor
  · simp only [breakShort, RADIX, Nat.ofDigits_cons, Nat.ofDigits_nil]
    norm_num
    omega
  · intro d listed
    simp only [breakShort, RADIX, List.mem_cons, List.not_mem_nil, or_false] at listed ⊢
    omega

/-- Subtracting a multiple of the divisor, up to the borrow. -/
theorem subtractRow_spec {q : Nat} (bounded : q ≤ 2 * RADIX) {xx yx : List Nat} {borrow : Nat}
    (xLimbs : Limbs RADIX xx) (yLimbs : Limbs RADIX yx) (aligned : yx.length = xx.length)
    (small : borrow ≤ q + 1) :
    ∃ limbs out, subtractRow q borrow xx yx = some (limbs, out) ∧ Limbs RADIX limbs ∧
      limbs.length = xx.length ∧
      Nat.ofDigits RADIX limbs + q * Nat.ofDigits RADIX xx + borrow =
        Nat.ofDigits RADIX yx + RADIX ^ xx.length * out := by
  induction xx generalizing yx borrow with
  | nil =>
    obtain rfl := List.eq_nil_of_length_eq_zero aligned
    refine ⟨[], borrow, rfl, Limbs.nil, rfl, ?_⟩
    simp [Nat.ofDigits_nil]
  | cons x xx ih =>
    cases yx with
    | nil => cases aligned
    | cons y yx =>
      have xLimb := xLimbs.head
      have yLimb := yLimbs.head
      simp only [RADIX] at bounded xLimb yLimb
      have product : q * x ≤ q * 9999 := Nat.mul_le_mul_left _ (by omega)
      have fits : int4 (q * x + borrow) = some (q * x + borrow) := int4_eq (by omega)
      have digits := Nat.div_add_mod (q * x + borrow) RADIX
      have high : (q * x + borrow) / RADIX ≤ q := by
        apply Nat.lt_succ_iff.mp
        rw [Nat.div_lt_iff_lt_mul (by decide)]
        simp only [RADIX]
        omega
      have lowLt : (q * x + borrow) % RADIX < RADIX := Nat.mod_lt _ (by decide)
      rw [subtractRow, fits]
      dsimp only [Option.bind_eq_bind, Option.bind_some]
      generalize (q * x + borrow) / RADIX = carry at *
      generalize (q * x + borrow) % RADIX = low at *
      -- The limb that is left, and what it borrows.
      obtain ⟨limb, next, step, limbLt, nextLe, left⟩ : ∃ limb next,
          (if (y : Int) - (low : Nat) < 0 then (((y : Int) - (low : Nat) + RADIX).toNat, carry + 1)
            else (((y : Int) - (low : Nat)).toNat, carry)) = (limb, next) ∧ limb < RADIX ∧
          next ≤ q + 1 ∧ limb + RADIX * carry + low = y + RADIX * next := by
        simp only [RADIX] at lowLt ⊢
        by_cases negative : (y : Int) - (low : Nat) < 0
        · refine ⟨_, _, if_pos negative, ?_, by omega, ?_⟩
          · push_cast
            omega
          · push_cast
            omega
        · exact ⟨_, _, if_neg negative, by omega, by omega, by omega⟩
      obtain ⟨limbs, out, rest, limbsOk, length, value⟩ :=
        ih xLimbs.tail yLimbs.tail (Nat.succ.inj aligned) nextLe
      rw [step]
      dsimp only
      rw [rest]
      refine ⟨limb :: limbs, out, rfl, limbsOk.cons limbLt, by simp [length], ?_⟩
      simp only [Nat.ofDigits_cons, List.length_cons, Nat.pow_succ]
      generalize Nat.ofDigits RADIX limbs = limbsValue at *
      generalize Nat.ofDigits RADIX yx = yValue at *
      generalize Nat.ofDigits RADIX xx = xValue at *
      calc limb + RADIX * limbsValue + q * (x + RADIX * xValue) + borrow
          = limb + (q * x + borrow) + RADIX * (limbsValue + q * xValue) := by ring
        _ = limb + RADIX * carry + low + RADIX * (limbsValue + q * xValue) := by
            rw [← digits]
            ring
        _ = y + RADIX * (limbsValue + q * xValue + next) := by
            rw [left]
            ring
        _ = y + RADIX * yValue + RADIX ^ xx.length * RADIX * out := by
            rw [value]
            ring

/-- Adding the divisor back, up to the carry. -/
theorem restoreRow_spec {xx yx : List Nat} {carry : Nat} (xLimbs : Limbs RADIX xx)
    (yLimbs : Limbs RADIX yx) (aligned : yx.length = xx.length) (small : carry ≤ 1) :
    ∃ limbs out, restoreRow carry xx yx = some (limbs, out) ∧ Limbs RADIX limbs ∧
      limbs.length = xx.length ∧
      Nat.ofDigits RADIX limbs + RADIX ^ xx.length * out =
        Nat.ofDigits RADIX yx + Nat.ofDigits RADIX xx + carry := by
  induction xx generalizing yx carry with
  | nil =>
    obtain rfl := List.eq_nil_of_length_eq_zero aligned
    refine ⟨[], carry, rfl, Limbs.nil, rfl, ?_⟩
    simp [Nat.ofDigits_nil]
  | cons x xx ih =>
    cases yx with
    | nil => cases aligned
    | cons y yx =>
      have xLimb := xLimbs.head
      have yLimb := yLimbs.head
      simp only [RADIX] at xLimb yLimb
      have fits : int4 (y + (x + carry)) = some (y + (x + carry)) := int4_eq (by omega)
      have digits := Nat.div_add_mod (y + (x + carry)) RADIX
      have one : (y + (x + carry)) / RADIX ≤ 1 := by
        simp only [RADIX]
        omega
      obtain ⟨limbs, out, rest, limbsOk, length, value⟩ :=
        ih xLimbs.tail yLimbs.tail (Nat.succ.inj aligned) one
      rw [restoreRow, fits]
      dsimp only [Option.bind_eq_bind, Option.bind_some]
      rw [rest]
      refine ⟨_ :: limbs, out, rfl, limbsOk.cons (Nat.mod_lt _ (by decide)), by simp [length], ?_⟩
      simp only [Nat.ofDigits_cons, List.length_cons, Nat.pow_succ]
      generalize Nat.ofDigits RADIX limbs = limbsValue at *
      generalize Nat.ofDigits RADIX yx = yValue at *
      generalize Nat.ofDigits RADIX xx = xValue at *
      generalize (y + (x + carry)) / RADIX = high at *
      generalize (y + (x + carry)) % RADIX = low at *
      calc low + RADIX * limbsValue + RADIX ^ xx.length * RADIX * out
          = low + RADIX * (limbsValue + RADIX ^ xx.length * out) := by ring
        _ = RADIX * high + low + RADIX * (yValue + xValue) := by
            rw [value]
            ring
        _ = y + RADIX * yValue + (x + RADIX * xValue) + carry := by
            rw [digits]
            ring

/-! ## One limb of the quotient -/

/-- Adding back ends with a remainder that is not negative, and below the divisor
if anything was added. -/
theorem addBack_spec {xx : List Nat} (xLimbs : Limbs RADIX xx) {q : Nat} {yx : List Nat} {top : Int}
    {w : Nat} (yLimbs : Limbs RADIX yx) (aligned : yx.length = xx.length)
    (balance : (w : Int) = Nat.ofDigits RADIX yx + RADIX ^ xx.length * top +
      q * Nat.ofDigits RADIX xx) :
    ∃ (q' : Nat) (yx' : List Nat) (top' : Int), addBack xx q yx top = some (q', yx', top') ∧
      Limbs RADIX yx' ∧ yx'.length = xx.length ∧ 0 ≤ top' ∧
      (w : Int) = Nat.ofDigits RADIX yx' + RADIX ^ xx.length * top' +
        q' * Nat.ofDigits RADIX xx ∧
      (q' = q ∨ (w : Int) < (q' + 1) * Nat.ofDigits RADIX xx) := by
  induction q generalizing yx top with
  | zero =>
    have bound := ofDigits_lt (by decide) yLimbs
    rw [aligned] at bound
    have nonneg : ¬ top < 0 := by
      intro negative
      have below : (RADIX : Int) ^ xx.length * top ≤ RADIX ^ xx.length * (-1) :=
        mul_le_mul_of_nonneg_left (by omega) (by positivity)
      have limbs : ((Nat.ofDigits RADIX yx : ℕ) : Int) < RADIX ^ xx.length := by
        rw [← Nat.cast_pow]
        exact Int.ofNat_lt.mpr bound
      rw [Nat.cast_zero, zero_mul, add_zero] at balance
      linarith [Int.natCast_nonneg w]
    refine ⟨0, yx, top, ?_, yLimbs, aligned, not_lt.mp nonneg, balance, .inl rfl⟩
    rw [addBack, if_neg nonneg]
  | succ q ih =>
    by_cases negative : top < 0
    · obtain ⟨limbs, out, restored, limbsOk, length, value⟩ :=
        restoreRow_spec xLimbs yLimbs aligned (by decide : 0 ≤ 1)
      have bound := ofDigits_lt (by decide) yLimbs
      rw [aligned] at bound
      have limbsLt : ((Nat.ofDigits RADIX yx : ℕ) : Int) < RADIX ^ xx.length := by
        rw [← Nat.cast_pow]
        exact Int.ofNat_lt.mpr bound
      have below : (RADIX : Int) ^ xx.length * top ≤ RADIX ^ xx.length * (-1) :=
        mul_le_mul_of_nonneg_left (by omega) (by positivity)
      have sum : ((Nat.ofDigits RADIX limbs : ℕ) : Int) + RADIX ^ xx.length * out =
          ((Nat.ofDigits RADIX yx : ℕ) : Int) + ((Nat.ofDigits RADIX xx : ℕ) : Int) := by
        have cast := congrArg (fun n : ℕ => (n : Int)) value
        simpa only [Nat.cast_add, Nat.cast_mul, Nat.cast_pow, Nat.add_zero] using cast
      have carried : (w : Int) = Nat.ofDigits RADIX limbs + RADIX ^ xx.length * (top + out) +
          q * Nat.ofDigits RADIX xx := by
        rw [Nat.cast_succ] at balance
        linarith
      obtain ⟨q', yx', top', found, yOk, yLength, nonneg, same, less⟩ :=
        ih limbsOk length carried
      refine ⟨q', yx', top', ?_, yOk, yLength, nonneg, same, .inr ?_⟩
      · rw [addBack, if_pos negative, restored]
        exact found
      · rcases less with rfl | less
        · rw [Nat.cast_succ] at balance
          linarith
        · exact less
    · refine ⟨q + 1, yx, top, ?_, yLimbs, aligned, not_lt.mp negative, balance, .inl rfl⟩
      rw [addBack, if_neg negative]

/-- A remainder that is not negative, below the divisor, is the remainder. -/
theorem quotient_of_balance {w x q rest : Nat} (balance : w = rest + q * x) (less : w < (q + 1) * x) :
    w / x = q ∧ w % x = rest := by
  have below : rest < x := by
    rw [balance] at less
    linarith
  constructor
  · rw [balance, Nat.add_mul_div_right _ _ (by omega), Nat.div_eq_of_lt below, Nat.zero_add]
  · rw [balance, Nat.add_mul_mod_self_right, Nat.mod_eq_of_lt below]

/-- A round leaves the limb of the quotient and the remainder. -/
theorem divRound_spec {xx yx : List Nat} {top : Nat} {lower rest : List Nat} {lead y : Nat}
    (xShape : xx = lower ++ [lead]) (yShape : yx = rest ++ [y]) (aligned : yx.length = xx.length)
    (xLimbs : Limbs RADIX xx) (yLimbs : Limbs RADIX yx) (normal : RADIX / 10 ≤ lead)
    (fits : Nat.ofDigits RADIX yx + RADIX ^ xx.length * top < RADIX * Nat.ofDigits RADIX xx) :
    ∃ left, divRound xx yx top =
        some ((Nat.ofDigits RADIX yx + RADIX ^ xx.length * top) / Nat.ofDigits RADIX xx, left) ∧
      Limbs RADIX left ∧ left.length = xx.length ∧
      Nat.ofDigits RADIX left =
        (Nat.ofDigits RADIX yx + RADIX ^ xx.length * top) % Nat.ofDigits RADIX xx := by
  have leadLt : lead < RADIX := xLimbs lead (by simp [xShape])
  have yLt : y < RADIX := yLimbs y (by simp [yShape])
  have lowerLt : Nat.ofDigits RADIX lower < RADIX ^ lower.length :=
    ofDigits_lt (by decide) fun d listed => xLimbs d (by simp [xShape, listed])
  have restLt : Nat.ofDigits RADIX rest < RADIX ^ rest.length :=
    ofDigits_lt (by decide) fun d listed => yLimbs d (by simp [yShape, listed])
  have lengths : rest.length = lower.length := by
    simpa [xShape, yShape] using aligned
  have width : RADIX ^ xx.length = RADIX ^ lower.length * RADIX := by
    rw [xShape, List.length_append, List.length_singleton, Nat.pow_succ]
  have xValue : Nat.ofDigits RADIX xx = Nat.ofDigits RADIX lower + RADIX ^ lower.length * lead := by
    rw [xShape, ofDigits_concat]
  have yValue : Nat.ofDigits RADIX yx = Nat.ofDigits RADIX rest + RADIX ^ lower.length * y := by
    rw [yShape, ofDigits_concat, lengths]
  have scalePos : 0 < RADIX ^ lower.length := Nat.pow_pos (by decide)
  rw [lengths] at restLt
  have leading : xx.getLastD 0 = lead ∧ yx.getLastD 0 = y := by
    rw [xShape, yShape]
    simp
  -- The limb above the window is at most the leading limb of the divisor.
  have topLe : top ≤ lead := by
    by_contra above
    have large : RADIX ^ xx.length * (lead + 1) ≤ RADIX ^ xx.length * top :=
      Nat.mul_le_mul_left _ (by omega)
    rw [width] at large
    rw [width, xValue] at fits
    have lowerScaled : RADIX * Nat.ofDigits RADIX lower < RADIX * RADIX ^ lower.length :=
      Nat.mul_lt_mul_of_pos_left lowerLt (by decide)
    generalize Nat.ofDigits RADIX lower = low at fits lowerScaled
    generalize Nat.ofDigits RADIX yx = window at fits
    linarith
  have wide : top * RADIX + y < 2 ^ 31 := by
    simp only [RADIX] at leadLt yLt ⊢
    omega
  have leadPos : ¬ lead = 0 := by
    simp only [RADIX] at normal
    omega
  have estimate : (Nat.ofDigits RADIX yx + RADIX ^ xx.length * top) / Nat.ofDigits RADIX xx ≤
      (top * RADIX + y) / lead := by
    apply trial_quotient_ge (Nat.ofDigits RADIX rest) scalePos (by omega)
    · rw [yValue, width]
      ring
    · exact restLt
    · rw [xValue]
      exact Nat.le_add_left _ _
  have bounded : (top * RADIX + y) / lead ≤ 2 * RADIX := by
    apply Nat.div_le_of_le_mul
    simp only [RADIX] at normal yLt ⊢
    nlinarith
  rw [divRound, leading.1, leading.2, int4_eq wide]
  dsimp only [Option.bind_eq_bind, Option.bind_some]
  rw [if_neg leadPos]
  by_cases skipped : (top * RADIX + y) / lead = 0
  · -- A zero limb: the window is already below the divisor.
    have small : top * RADIX + y < lead := by
      rcases Nat.div_eq_zero_iff.mp skipped with zero | small
      · exact absurd zero leadPos
      · exact small
    have none : top = 0 := by
      simp only [RADIX] at small leadLt
      omega
    subst none
    rw [skipped, Nat.mul_zero, Nat.add_zero] at estimate
    rw [Nat.mul_zero, Nat.add_zero] at fits ⊢
    have xPos : 0 < Nat.ofDigits RADIX xx := by
      by_contra zero
      rw [Nat.eq_zero_of_not_pos zero] at fits
      omega
    have below : Nat.ofDigits RADIX yx < Nat.ofDigits RADIX xx := by
      rcases Nat.div_eq_zero_iff.mp (Nat.le_zero.mp estimate) with zero | below
      · omega
      · exact below
    refine ⟨yx, ?_, yLimbs, aligned, (Nat.mod_eq_of_lt below).symm⟩
    rw [if_neg (not_not.mpr skipped), if_pos rfl, Nat.div_eq_of_lt below]
  · rw [if_pos skipped]
    generalize (top * RADIX + y) / lead = q at *
    obtain ⟨limbs, out, subtracted, limbsOk, length, value⟩ :=
      subtractRow_spec bounded xLimbs yLimbs aligned (Nat.zero_le (q + 1))
    generalize wEq : Nat.ofDigits RADIX yx + RADIX ^ xx.length * top = w at *
    have balance : (w : Int) = ((Nat.ofDigits RADIX limbs : ℕ) : Int) +
        RADIX ^ xx.length * (top - (out : Int)) + q * ((Nat.ofDigits RADIX xx : ℕ) : Int) := by
      have cast := congrArg (fun n : ℕ => (n : Int)) value
      simp only [Nat.cast_add, Nat.cast_mul, Nat.cast_pow, Nat.add_zero] at cast
      rw [← wEq]
      simp only [Nat.cast_add, Nat.cast_mul, Nat.cast_pow]
      linarith
    obtain ⟨q', left, top', found, leftOk, leftLength, nonneg, same, less⟩ :=
      addBack_spec xLimbs limbsOk length balance
    obtain ⟨rest', restEq⟩ := Int.eq_ofNat_of_zero_le nonneg
    rw [restEq] at same
    have natural : w = Nat.ofDigits RADIX left + RADIX ^ xx.length * rest' +
        q' * Nat.ofDigits RADIX xx := by
      have cast : ((w : ℕ) : Int) = ((Nat.ofDigits RADIX left + RADIX ^ xx.length * rest' +
          q' * Nat.ofDigits RADIX xx : ℕ) : Int) := by
        simp only [Nat.cast_add, Nat.cast_mul, Nat.cast_pow]
        exact same
      exact Int.ofNat.inj cast
    have under : w < (q' + 1) * Nat.ofDigits RADIX xx := by
      rcases less with rfl | less
      · -- The estimate was not corrected, so it was not too large.
        have xPos : 0 < Nat.ofDigits RADIX xx := by
          by_contra zero
          rw [Nat.eq_zero_of_not_pos zero] at fits
          omega
        exact (Nat.div_lt_iff_lt_mul xPos).mp (by omega)
      · exact_mod_cast less
    obtain ⟨quotient, remainder⟩ := quotient_of_balance natural under
    have xLt := ofDigits_lt (by decide) xLimbs
    have zero : rest' = 0 := by
      by_contra positive
      have large : RADIX ^ xx.length ≤ RADIX ^ xx.length * rest' :=
        Nat.le_mul_of_pos_right _ (by omega)
      rw [Nat.succ_mul] at under
      omega
    subst zero
    have limbLt : q' < RADIX := by
      rw [← quotient]
      apply Nat.div_lt_of_lt_mul
      rw [Nat.mul_comm]
      exact fits
    refine ⟨left, ?_, leftOk, leftLength, ?_⟩
    · rw [subtracted]
      dsimp only [Option.bind_some]
      rw [found, quotient]
      dsimp only [Option.bind_some]
      rw [if_pos ⟨limbLt, restEq⟩]
    · rw [remainder, Nat.mul_zero, Nat.add_zero]

/-! ## All limbs of the quotient -/

theorem exists_leading_limb {limbs : List Nat} {n : Nat} (length : limbs.length = n + 1) :
    ∃ rest lead, limbs = rest ++ [lead] := by
  rcases List.eq_nil_or_concat limbs with rfl | ⟨rest, lead, shape⟩
  · cases length
  · rw [List.concat_eq_append] at shape
    exact ⟨rest, lead, shape⟩

/-- Moving the window down by a zero limb multiplies the remainder by the base. -/
theorem window_moved {left : List Nat} {n : Nat} (length : left.length = n + 1) :
    Nat.ofDigits RADIX (0 :: left.dropLast) + RADIX ^ (n + 1) * left.getLastD 0 =
      RADIX * Nat.ofDigits RADIX left := by
  obtain ⟨rest, lead, rfl⟩ := exists_leading_limb length
  have restLength : rest.length = n := by simpa using length
  rw [List.dropLast_concat, Nat.ofDigits_cons, ofDigits_concat, restLength, Nat.pow_succ]
  simp only [List.getLastD_concat]
  ring

/-- The rounds compute the quotient of the dividend extended by zero limbs. -/
theorem divRounds_spec {xx lower : List Nat} {lead : Nat} (xShape : xx = lower ++ [lead])
    (xLimbs : Limbs RADIX xx) (normal : RADIX / 10 ≤ lead) {yx : List Nat} {top : Nat}
    (yLimbs : Limbs RADIX yx) (aligned : yx.length = xx.length) (n : Nat)
    (fits : Nat.ofDigits RADIX yx + RADIX ^ xx.length * top < RADIX * Nat.ofDigits RADIX xx) :
    ∃ qx, divRounds xx (List.replicate n 0) yx top = some qx ∧ Limbs RADIX qx ∧
      qx.length = n + 1 ∧ Nat.ofDigits RADIX qx =
        (Nat.ofDigits RADIX yx + RADIX ^ xx.length * top) * RADIX ^ n / Nat.ofDigits RADIX xx := by
  have width : xx.length = lower.length + 1 := by simp [xShape]
  have xPos : 0 < Nat.ofDigits RADIX xx := by
    by_contra zero
    rw [Nat.eq_zero_of_not_pos zero] at fits
    omega
  induction n generalizing yx top with
  | zero =>
    obtain ⟨rest, y, yShape⟩ := exists_leading_limb (aligned.trans width)
    obtain ⟨left, round, _, _, _⟩ :=
      divRound_spec xShape yShape aligned xLimbs yLimbs normal fits
    refine ⟨_, by rw [List.replicate_zero, divRounds, round]; rfl, ?_, rfl, ?_⟩
    · apply Limbs.nil.cons
      apply Nat.div_lt_of_lt_mul
      rw [Nat.mul_comm (Nat.ofDigits RADIX xx)]
      exact fits
    · rw [Nat.ofDigits_singleton, pow_zero, mul_one]
  | succ n ih =>
    obtain ⟨rest, y, yShape⟩ := exists_leading_limb (aligned.trans width)
    obtain ⟨left, round, leftOk, leftLength, remainder⟩ :=
      divRound_spec xShape yShape aligned xLimbs yLimbs normal fits
    generalize Nat.ofDigits RADIX yx + RADIX ^ xx.length * top = w at *
    have moved := window_moved (leftLength.trans width)
    rw [← width, remainder] at moved
    have movedOk : Limbs RADIX (0 :: left.dropLast) := by
      apply Limbs.cons (by decide)
      exact fun d listed => leftOk d (List.dropLast_subset left listed)
    have movedLength : (0 :: left.dropLast).length = xx.length := by
      rw [List.length_cons, List.length_dropLast, leftLength]
      omega
    have movedFits : Nat.ofDigits RADIX (0 :: left.dropLast) + RADIX ^ xx.length * left.getLastD 0 <
        RADIX * Nat.ofDigits RADIX xx := by
      rw [moved]
      exact Nat.mul_lt_mul_of_pos_left (Nat.mod_lt _ xPos) (by decide)
    obtain ⟨qx, found, qxOk, qxLength, value⟩ :=
      ih movedOk movedLength movedFits
    refine ⟨qx ++ [w / Nat.ofDigits RADIX xx], ?_, ?_, by simp [qxLength], ?_⟩
    · rw [List.replicate_succ, divRounds, round]
      dsimp only [Option.bind_eq_bind, Option.bind_some]
      rw [found]
      rfl
    · apply qxOk.append
      apply Limbs.nil.cons
      apply Nat.div_lt_of_lt_mul
      rw [Nat.mul_comm]
      exact fits
    · rw [ofDigits_concat, qxLength, value, moved]
      generalize Nat.ofDigits RADIX xx = x at *
      have split := Nat.div_add_mod w x
      have regrouped : w * RADIX ^ (n + 1) =
          RADIX * (w % x) * RADIX ^ n + x * (RADIX ^ (n + 1) * (w / x)) := by
        nth_rewrite 1 [← split]
        rw [Nat.pow_succ]
        ring
      rw [regrouped, Nat.add_mul_div_left _ _ xPos]

/-- The leading eighteen digits of a quotient of twenty. -/
theorem quotient_words (a0 a1 a2 a3 a4 : Nat) :
    ((a4 * RADIX + a3) * 10 + a2 / 1000) * 10 ^ 9 + ((a2 % 1000 * RADIX + a1) * 100 + a0 / 100) =
      Nat.ofDigits RADIX [a0, a1, a2, a3, a4] / 100 := by
  simp only [Nat.ofDigits_cons, Nat.ofDigits_nil, RADIX]
  apply Nat.le_antisymm <;> omega

theorem five_limbs {limbs : List Nat} (length : limbs.length = 5) :
    ∃ a0 a1 a2 a3 a4, limbs = [a0, a1, a2, a3, a4] := by
  refine ⟨limbs.getD 0 0, limbs.getD 1 0, limbs.getD 2 0, limbs.getD 3 0, limbs.getD 4 0, ?_⟩
  apply List.ext_getElem
  · simp [length]
  · intro i _ inside
    simp only [List.length_cons, List.length_nil] at inside
    interval_cases i <;> simp [length]

/-- The rounds on a dividend below the divisor, in the limbs the divisor has. -/
theorem quotient_limbs {x1 x0 : Nat} (xNormal : NormalWords x1 x0) {yx : List Nat}
    (yLimbs : Limbs RADIX yx) (five : yx.length = 5)
    (below : Nat.ofDigits RADIX yx < (x1 * 10 ^ 9 + x0) * 100) :
    yx.getLastD 0 ≤ (breakLong x1 x0).getLastD 0 ∧
      ∃ a0 a1 a2 a3 a4, divRounds (breakLong x1 x0) [0, 0, 0, 0] (0 :: yx.dropLast) (yx.getLastD 0) =
          some [a0, a1, a2, a3, a4] ∧ Limbs RADIX [a0, a1, a2, a3, a4] ∧
        Nat.ofDigits RADIX [a0, a1, a2, a3, a4] / 100 =
          Nat.ofDigits RADIX yx * 10 ^ 16 / (x1 * 10 ^ 9 + x0) := by
  obtain ⟨xLo, _, xHigh, xLow⟩ := xNormal.small
  obtain ⟨xValue, xLimbs⟩ := breakLong_spec _ _ xHigh xLow
  have moved := window_moved five
  have lead : RADIX / 10 ≤ x1 / (RADIX / 1000 * RADIX) := by
    have := xNormal.lo
    simp only [MANT_LO, RADIX] at this ⊢
    omega
  have fits : Nat.ofDigits RADIX (0 :: yx.dropLast) +
      RADIX ^ (breakLong x1 x0).length * yx.getLastD 0 < RADIX * Nat.ofDigits RADIX (breakLong x1 x0) := by
    change Nat.ofDigits RADIX (0 :: yx.dropLast) + RADIX ^ 5 * yx.getLastD 0 < _
    rw [moved, xValue]
    exact Nat.mul_lt_mul_of_pos_left below (by decide)
  have windowOk : Limbs RADIX (0 :: yx.dropLast) := by
    apply Limbs.cons (by decide)
    exact fun d listed => yLimbs d (List.dropLast_subset yx listed)
  have shape : breakLong x1 x0 = (breakLong x1 x0).dropLast ++ [x1 / (RADIX / 1000 * RADIX)] := rfl
  obtain ⟨qx, found, qxOk, qxLength, value⟩ :=
    divRounds_spec shape xLimbs lead windowOk (by simp [five, breakLong]) 4 fits
  obtain ⟨a0, a1, a2, a3, a4, rfl⟩ := five_limbs qxLength
  constructor
  · obtain ⟨rest, y, rfl⟩ := exists_leading_limb five
    have restLength : rest.length = 4 := by simpa using five
    rw [ofDigits_concat, restLength] at below
    rw [List.getLastD_concat]
    change y ≤ x1 / (RADIX / 1000 * RADIX)
    simp only [RADIX] at below ⊢
    change x1 < 10 ^ 9 at xHigh
    change x0 < 10 ^ 9 at xLow
    generalize Nat.ofDigits 10000 rest = r at below
    rw [Nat.le_div_iff_mul_le (by decide)]
    omega
  · refine ⟨a0, a1, a2, a3, a4, found, qxOk, ?_⟩
    rw [value]
    change (Nat.ofDigits RADIX (0 :: yx.dropLast) + RADIX ^ 5 * yx.getLastD 0) * RADIX ^ 4 / _ / _ = _
    rw [moved, xValue, Nat.div_div_eq_div_mul]
    have scaled : RADIX * Nat.ofDigits RADIX yx * RADIX ^ 4 =
        Nat.ofDigits RADIX yx * 10 ^ 16 * 10 ^ 4 := by
      simp only [RADIX]
      ring
    rw [scaled, show (x1 * 10 ^ 9 + x0) * 100 * 100 = (x1 * 10 ^ 9 + x0) * 10 ^ 4 by ring]
    exact Nat.mul_div_mul_right _ _ (by decide)

/-- Words are ordered by the high one first. -/
theorem words_le {x1 x0 y1 y0 : Nat} (xLow : x0 < 10 ^ 9) (yLow : y0 < 10 ^ 9) :
    x1 * 10 ^ 9 + x0 ≤ y1 * 10 ^ 9 + y0 ↔ x1 < y1 ∨ (x1 = y1 ∧ x0 ≤ y0) := by
  rcases Nat.lt_trichotomy x1 y1 with less | rfl | more
  · constructor
    · exact fun _ => .inl less
    · intro _
      omega
  · omega
  · constructor
    · intro _
      omega
    · intro order
      omega

/-- The leading eighteen digits of the quotient of two normalised operands. -/
theorem eb_div_spec {x1 x0 y1 y0 : Nat} (xNormal : NormalWords x1 x0) (yNormal : NormalWords y1 y0) :
    ∃ c q1 q0, eb_div x1 x0 y1 y0 = some (c, q1, q0) ∧ NormalWords q1 q0 ∧
      ((c = 1 ∧ q1 * 10 ^ 9 + q0 = (y1 * 10 ^ 9 + y0) * 10 ^ 17 / (x1 * 10 ^ 9 + x0)) ∨
        (c = 0 ∧ q1 * 10 ^ 9 + q0 = (y1 * 10 ^ 9 + y0) * 10 ^ 18 / (x1 * 10 ^ 9 + x0))) := by
  obtain ⟨xLo, xHi, xHigh, xLow⟩ := xNormal.small
  obtain ⟨yLo, yHi, yHigh, yLow⟩ := yNormal.small
  have xPos : 0 < x1 * 10 ^ 9 + x0 := by omega
  -- Both ways of breaking the dividend apart put it below the divisor and leave a
  -- quotient of eighteen digits.
  have scaled : ∃ (yx : List Nat) (c : Int) (k : Nat),
      (if x1 < y1 ∨ (x1 = y1 ∧ x0 ≤ y0) then breakShort y1 y0 else breakLong y1 y0) = yx ∧
      (if x1 < y1 ∨ (x1 = y1 ∧ x0 ≤ y0) then (1 : Int) else 0) = c ∧ yx.length = 5 ∧
      Limbs RADIX yx ∧ Nat.ofDigits RADIX yx < (x1 * 10 ^ 9 + x0) * 100 ∧
      Nat.ofDigits RADIX yx * 10 ^ 16 = (y1 * 10 ^ 9 + y0) * 10 ^ k ∧
      10 ^ 17 * (x1 * 10 ^ 9 + x0) ≤ (y1 * 10 ^ 9 + y0) * 10 ^ k ∧
      (y1 * 10 ^ 9 + y0) * 10 ^ k < 10 ^ 18 * (x1 * 10 ^ 9 + x0) ∧
      ((c = 1 ∧ k = 17) ∨ (c = 0 ∧ k = 18)) := by
    by_cases above : x1 < y1 ∨ (x1 = y1 ∧ x0 ≤ y0)
    · obtain ⟨value, limbs⟩ := breakShort_spec yHigh yLow
      have order := (words_le xLow yLow).mpr above
      refine ⟨breakShort y1 y0, 1, 17, if_pos above, if_pos above, rfl, limbs, ?_, ?_, ?_, ?_,
        .inl ⟨rfl, rfl⟩⟩
      · rw [value]
        omega
      · rw [value]
        ring
      · rw [Nat.mul_comm]
        exact Nat.mul_le_mul_right _ order
      · calc (y1 * 10 ^ 9 + y0) * 10 ^ 17 < 10 ^ 18 * 10 ^ 17 :=
              Nat.mul_lt_mul_of_pos_right yHi (by decide)
          _ ≤ 10 ^ 18 * (x1 * 10 ^ 9 + x0) := Nat.mul_le_mul_left _ xLo
    · obtain ⟨value, limbs⟩ := breakLong_spec _ _ yHigh yLow
      have order := not_le.mp (mt (words_le xLow yLow).mp above)
      refine ⟨breakLong y1 y0, 0, 18, if_neg above, if_neg above, rfl, limbs, ?_, ?_, ?_, ?_,
        .inr ⟨rfl, rfl⟩⟩
      · rw [value]
        exact Nat.mul_lt_mul_of_pos_right order (by decide)
      · rw [value]
        ring
      · calc 10 ^ 17 * (x1 * 10 ^ 9 + x0) ≤ 10 ^ 17 * 10 ^ 18 := Nat.mul_le_mul_left _ xHi.le
          _ ≤ (y1 * 10 ^ 9 + y0) * 10 ^ 18 := Nat.mul_le_mul_right _ yLo
      · rw [Nat.mul_comm]
        exact Nat.mul_lt_mul_of_pos_left order (by decide)
  obtain ⟨yx, c, k, broken, factor, five, yLimbs, below, dividend, least, most, kept⟩ := scaled
  obtain ⟨leads, a0, a1, a2, a3, a4, found, qxOk, leading⟩ := quotient_limbs xNormal yLimbs five below
  have words := quotient_words a0 a1 a2 a3 a4
  rw [leading, dividend] at words
  have limb : ∀ a ∈ [a0, a1, a2, a3, a4], a < 10000 := qxOk
  simp only [List.mem_cons, List.not_mem_nil, or_false, forall_eq_or_imp, forall_eq] at limb
  obtain ⟨l0, l1, l2, l3, l4⟩ := limb
  have normal : NormalWords ((a4 * RADIX + a3) * 10 + a2 / 1000)
      ((a2 % 1000 * RADIX + a1) * 100 + a0 / 100) := by
    apply normalWords_of_digits
    · simp only [RADIX]
      omega
    · rw [words, Nat.le_div_iff_mul_le xPos]
      exact least
    · rw [words]
      apply Nat.div_lt_of_lt_mul
      rw [Nat.mul_comm (x1 * 10 ^ 9 + x0)]
      exact most
  refine ⟨c, _, _, ?_, normal, ?_⟩
  · rw [eb_div, broken, factor]
    dsimp only [Option.bind_eq_bind, Option.bind_some]
    rw [if_pos leads, found]
    dsimp only [Option.bind_some]
    rw [int4_eq (lt_trans normal.low (by decide)), Option.bind_some,
      int4_eq (lt_trans normal.hi (by decide)), Option.bind_some, if_pos (.inl ⟨normal.lo, normal.hi⟩)]
    rfl
  · rcases kept with ⟨one, rfl⟩ | ⟨zero, rfl⟩
    · exact .inl ⟨one, words⟩
    · exact .inr ⟨zero, words⟩

/-! ## The quotient of two numbers -/

/-- A natural quotient, seen as a rational in the next lower unit. -/
theorem division_bounds {y x k : Nat} (xPos : 0 < x) (e : Int) :
    ((y * 10 ^ k / x : Nat) : ℚ) * 10 ^ (e - k) ≤ y / x * (10 : ℚ) ^ e ∧
      y / x * (10 : ℚ) ^ e < ((y * 10 ^ k / x : Nat) + 1) * (10 : ℚ) ^ (e - k) := by
  have positive : (0 : ℚ) < x := by exact_mod_cast xPos
  have unit : (0 : ℚ) < 10 ^ (e - k) := zpow_pos (by norm_num) _
  have power : (10 : ℚ) ^ e = 10 ^ k * 10 ^ (e - k) := by
    rw [← zpow_natCast, ← zpow_add₀ (by norm_num), add_sub_cancel]
  have below : y * 10 ^ k / x * x ≤ y * 10 ^ k := Nat.div_mul_le_self _ _
  have above : y * 10 ^ k < (y * 10 ^ k / x + 1) * x := by
    rw [Nat.mul_comm (_ + 1)]
    exact Nat.lt_mul_div_succ _ xPos
  rw [power, ← mul_assoc]
  constructor
  · apply mul_le_mul_of_nonneg_right _ unit.le
    rw [div_mul_eq_mul_div, le_div_iff₀ positive]
    exact_mod_cast below
  · apply mul_lt_mul_of_pos_right _ unit
    rw [div_mul_eq_mul_div, div_lt_iff₀ positive]
    exact_mod_cast above

/-- The quotient of two floats is the exact quotient truncated to eighteen digits. -/
theorem divExtended_delivers {u v : Mval} (uFloat : u.IsFloat) (vFloat : v.IsFloat) (q : Mval) :
    ∃ outcome, divExtended u v q = some outcome ∧
      Delivers (truncateTo 10 18 (u.value / v.value)) outcome := by
  have vNormal := NormalWords.of_float vFloat
  obtain ⟨c, q1, q0, quotient, normal, digits⟩ := eb_div_spec vNormal (NormalWords.of_float uFloat)
  have stored := storeExtended_delivers q (u.sgn ^^ v.sgn) ((u.e : Int) - v.e + c + MV_XBIAS) normal
  have range : ¬ (EXPHI ≤ v.e ∨ EXPHI ≤ u.e) := by
    have := uFloat.e_hi
    have := vFloat.e_hi
    omega
  refine ⟨storeExtended q (u.sgn ^^ v.sgn) ((u.e : Int) - v.e + c + MV_XBIAS) q1 q0, ?_, ?_⟩
  · rw [divExtended, if_neg range, quotient]
    exact stored.asserted
  have vPos : 0 < v.m1.toNat * 10 ^ 9 + v.m0.toNat := by
    have := vNormal.small.1
    omega
  have exact : u.value / v.value = signFactor (u.sgn ^^ v.sgn) *
      (((u.m1.toNat * 10 ^ 9 + u.m0.toNat : Nat) : ℚ) / (v.m1.toNat * 10 ^ 9 + v.m0.toNat : Nat) *
        10 ^ ((u.e : Int) - v.e)) := by
    have power : (10 : ℚ) ^ ((u.e : Int) - v.e) =
        10 ^ ((u.e : Int) - MV_XBIAS - 18) / 10 ^ ((v.e : Int) - MV_XBIAS - 18) := by
      rw [← zpow_sub₀ (by norm_num)]
      congr 1
      ring
    have signs : signFactor (u.sgn ^^ v.sgn) = signFactor u.sgn / signFactor v.sgn := by
      cases u.sgn <;> cases v.sgn <;> norm_num [signFactor]
    rw [uFloat.value_words, vFloat.value_words, power, signs, mul_div_mul_comm, mul_div_mul_comm]
  have scaled : ∃ k : Nat, (k : Int) = 18 - c ∧ q1 * 10 ^ 9 + q0 =
      (u.m1.toNat * 10 ^ 9 + u.m0.toNat) * 10 ^ k / (v.m1.toNat * 10 ^ 9 + v.m0.toNat) := by
    rcases digits with ⟨rfl, words⟩ | ⟨rfl, words⟩
    · exact ⟨17, rfl, words⟩
    · exact ⟨18, rfl, words⟩
  obtain ⟨k, factor, words⟩ := scaled
  have unit : (u.e : Int) - v.e + c + MV_XBIAS - MV_XBIAS - 18 = (u.e : Int) - v.e - k := by
    rw [factor]
    ring
  obtain ⟨below, above⟩ := division_bounds (y := u.m1.toNat * 10 ^ 9 + u.m0.toNat) (k := k) vPos
    ((u.e : Int) - v.e)
  rw [← words, ← unit] at below above
  rw [exact, normal.truncateTo_eq _ ((u.e : Int) - v.e + c + MV_XBIAS) below above]
  exact stored

/-- `op_div` on operands not both in `MV_INT` form. -/
theorem op_div_delivers (eb_mvint_div : Int → Int → Option Int) (tg : ThreadGbl) {u v : Mval}
    (uCanonical : u.Canonical) (vCanonical : v.Canonical) (uNotNull : u.mvtype.sqlnull = false)
    (vNotNull : v.mvtype.sqlnull = false) (uNonzero : u.value ≠ 0) (vNonzero : v.value ≠ 0)
    (mixed : (u.mvtype.int && v.mvtype.int) = false) (q : Mval) :
    ∃ outcome, op_div eb_mvint_div tg u v q = some outcome ∧
      Delivers (truncateTo 10 18 (u.value / v.value)) outcome := by
  have uForced := mvForceNum_of_canonical tg uCanonical uNotNull
  have vForced := mvForceNum_of_canonical tg vCanonical vNotNull
  obtain ⟨uFloat, uValue⟩ := inFloatForm_isFloat uCanonical.form uNonzero
  obtain ⟨vFloat, vValue⟩ := inFloatForm_isFloat vCanonical.form vNonzero
  have digits : ¬ (v.mvtype.int = false ∧ v.m0 = 0 ∧ v.m1 = 0) := by
    rintro ⟨notInt, m0, m1⟩
    apply vNonzero
    simp [Mval.value, notInt, m0, m1]
  have divisor : ¬ (v.mvtype.int && decide (v.m1 = 0)) = true := by
    rw [Bool.and_eq_true, decide_eq_true_eq]
    rintro ⟨isInt, m1⟩
    apply vNonzero
    simp [Mval.value, isInt, m1]
  have body : op_div eb_mvint_div tg u v q = divExtended (inFloatForm u) (inFloatForm v) q := by
    simp only [op_div, uNotNull, vNotNull, Bool.or_self, Bool.false_eq_true, if_false, uForced,
      vForced, mixed, if_neg digits, if_neg divisor]
  rw [body, ← uValue, ← vValue]
  exact divExtended_delivers uFloat vFloat q

/-- `op_div` on a divisor in float form. -/
theorem op_div_eq (eb_mvint_div : Int → Int → Option Int) (tg : ThreadGbl) {u v : Mval}
    (uNm : u.mvtype.nm = true) (uNotNull : u.mvtype.sqlnull = false) (vFloat : v.IsFloat)
    (vNotNull : v.mvtype.sqlnull = false) (q : Mval) :
    op_div eb_mvint_div tg u v q = divExtended (inFloatForm u) v q := by
  have digits : ¬ (v.m0 = 0 ∧ v.m1 = 0) := by
    rintro ⟨_, m1⟩
    have := vFloat.m1_lo
    rw [m1] at this
    exact absurd this (by decide)
  simp only [op_div, uNotNull, vNotNull, Bool.or_self, Bool.false_eq_true, if_false,
    mvForceNum_eq tg uNm uNotNull, mvForceNum_eq tg vFloat.nm vNotNull, vFloat.int, true_and,
    if_neg digits, Bool.false_and, Bool.and_false, inFloatForm]

/-- The quotient of zero is zero. -/
theorem divExtended_zero {v : Mval} (vFloat : v.IsFloat) (q : Mval) :
    divExtended literal_zero v q = some (.ok literal_zero) := by
  have vNormal := NormalWords.of_float vFloat
  obtain ⟨vLo, _, vHigh, vLow⟩ := vNormal.small
  have vRange := And.intro vFloat.e_lo vFloat.e_hi
  simp only [EXPLO, EXPHI] at vRange
  obtain ⟨zeroValue, zeroLimbs⟩ := breakLong_spec 0 0 (by decide) (by decide)
  obtain ⟨leads, a0, a1, a2, a3, a4, found, _, leading⟩ := quotient_limbs vNormal zeroLimbs rfl
    (by rw [zeroValue]; omega)
  have words := quotient_words a0 a1 a2 a3 a4
  rw [leading, zeroValue, Nat.zero_mul, Nat.zero_add, Nat.zero_mul, Nat.zero_div] at words
  have quotient : eb_div v.m1.toNat v.m0.toNat 0 0 = some (0, 0, 0) := by
    have notAbove : ¬ (v.m1.toNat < 0 ∨ (v.m1.toNat = 0 ∧ v.m0.toNat ≤ 0)) := by omega
    have high : (a4 * RADIX + a3) * 10 + a2 / 1000 = 0 := by omega
    have low : (a2 % 1000 * RADIX + a1) * 100 + a0 / 100 = 0 := by omega
    rw [eb_div, if_neg notAbove, if_neg notAbove]
    dsimp only [Option.bind_eq_bind, Option.bind_some]
    rw [if_pos leads, found]
    dsimp only [Option.bind_some]
    rw [high, low]
    rfl
  have range : ¬ (EXPHI ≤ v.e ∨ EXPHI ≤ literal_zero.e) := by
    simp only [EXPHI, literal_zero]
    omega
  rw [divExtended, if_neg range]
  change (eb_div v.m1.toNat v.m0.toNat 0 0).bind _ = _
  rw [quotient]
  have exponents : ¬ (EXPHI : Int) ≤ (0 : Nat) - v.e + 0 + MV_XBIAS := by
    simp only [EXPHI, MV_XBIAS]
    omega
  have notDemoted : demotable ((0 : Nat) - v.e + 0 + MV_XBIAS) 0 0 = false := by
    rw [Bool.eq_false_iff, ne_eq, demotable_iff]
    simp only [MV_XBIAS]
    omega
  change assertMantissa (storeExtended q _ ((0 : Nat) - v.e + 0 + MV_XBIAS) 0 0) = _
  rw [storeExtended, if_neg exponents, notDemoted, if_neg Bool.false_ne_true,
    if_pos (⟨rfl, rfl⟩ : (0 : Nat) = 0 ∧ (0 : Nat) = 0), ite_self]
  rfl

/-- The outcome of a nonzero exact result that is truncated to eighteen digits. -/
theorem Delivers.truncated {exact : ℚ} (nonzero : exact ≠ 0) {outcome : Except RtsError Mval}
    (delivers : Delivers (truncateTo 10 18 exact) outcome) :
    (outcome = .error .numoflow ↔ (EXPHI : Int) ≤ exponent 10 exact + MV_XBIAS) ∧
      ((∃ w, outcome = .ok w ∧ w.value = 0) ↔ exponent 10 exact + MV_XBIAS < EXPLO) := by
  obtain ⟨kept, same⟩ := exponent_truncateTo (b := 10) (n := 18) (by decide) (by decide) nonzero
  constructor
  · rw [delivers.overflow_iff, same]
  · rw [delivers.zero_iff, same]
    exact or_iff_right kept

/-- Multiplication and division of nonzero canonical numbers that are not both in
`MV_INT` form. Every assertion holds and no value overflows its `int4`, since both
routines return. The outcome is the canonical form of the exact result truncated to
eighteen digits, an overflow exactly from exponent `EXPHI` on and zero exactly below
exponent `EXPLO`. -/
theorem products_and_quotients (eb_int_mul eb_mvint_div : Int → Int → Option Int) (tg : ThreadGbl)
    {u v : Mval} (uCanonical : u.Canonical) (vCanonical : v.Canonical)
    (uNotNull : u.mvtype.sqlnull = false) (vNotNull : v.mvtype.sqlnull = false)
    (uNonzero : u.value ≠ 0) (vNonzero : v.value ≠ 0)
    (mixed : (u.mvtype.int && v.mvtype.int) = false) (p : Mval) :
    (∃ outcome, op_mul eb_int_mul tg u v p = some outcome ∧
      Delivers (truncateTo 10 18 (u.value * v.value)) outcome ∧
      (outcome = .error .numoflow ↔ (EXPHI : Int) ≤ exponent 10 (u.value * v.value) + MV_XBIAS) ∧
      ((∃ w, outcome = .ok w ∧ w.value = 0) ↔
        exponent 10 (u.value * v.value) + MV_XBIAS < EXPLO)) ∧
    (∃ outcome, op_div eb_mvint_div tg u v p = some outcome ∧
      Delivers (truncateTo 10 18 (u.value / v.value)) outcome ∧
      (outcome = .error .numoflow ↔ (EXPHI : Int) ≤ exponent 10 (u.value / v.value) + MV_XBIAS) ∧
      ((∃ w, outcome = .ok w ∧ w.value = 0) ↔
        exponent 10 (u.value / v.value) + MV_XBIAS < EXPLO)) := by
  constructor
  · obtain ⟨outcome, returned, delivers⟩ := op_mul_delivers eb_int_mul tg uCanonical vCanonical
      uNotNull vNotNull uNonzero vNonzero mixed p
    exact ⟨outcome, returned, delivers, delivers.truncated (mul_ne_zero uNonzero vNonzero)⟩
  · obtain ⟨outcome, returned, delivers⟩ := op_div_delivers eb_mvint_div tg uCanonical vCanonical
      uNotNull vNotNull uNonzero vNonzero mixed p
    exact ⟨outcome, returned, delivers, delivers.truncated (div_ne_zero uNonzero vNonzero)⟩

/-- 1234567.25 times and divided by 0.000999999999000000001. Both results have more than
eighteen digits. -/
theorem products_and_quotients_truncated : ∃ u v : Mval,
    u = ⟨mvNm, false, 69, 0, 123456725, []⟩ ∧ v = ⟨mvNm, false, 59, 1, 999999999, []⟩ ∧
    (∃ outcome, op_mul (fun _ _ => none) ⟨false, false⟩ u v literal_zero = some outcome ∧
      Delivers (truncateTo 10 18 (u.value * v.value)) outcome ∧
      (outcome = .error .numoflow ↔ (EXPHI : Int) ≤ exponent 10 (u.value * v.value) + MV_XBIAS) ∧
      ((∃ w, outcome = .ok w ∧ w.value = 0) ↔
        exponent 10 (u.value * v.value) + MV_XBIAS < EXPLO)) ∧
    (∃ outcome, op_div (fun _ _ => none) ⟨false, false⟩ u v literal_zero = some outcome ∧
      Delivers (truncateTo 10 18 (u.value / v.value)) outcome ∧
      (outcome = .error .numoflow ↔ (EXPHI : Int) ≤ exponent 10 (u.value / v.value) + MV_XBIAS) ∧
      ((∃ w, outcome = .ok w ∧ w.value = 0) ↔
        exponent 10 (u.value / v.value) + MV_XBIAS < EXPLO)) := by
  have first : Mval.IsFloat ⟨mvNm, false, 69, 0, 123456725, []⟩ := by
    constructor <;> decide
  have second : Mval.IsFloat ⟨mvNm, false, 59, 1, 999999999, []⟩ := by
    constructor <;> decide
  refine ⟨_, _, rfl, rfl, products_and_quotients (fun _ _ => none) (fun _ _ => none)
    ⟨false, false⟩ (first.canonical 8 rfl (by decide)) (second.canonical 18 rfl (by decide)) rfl rfl
    ?_ ?_ rfl literal_zero⟩
  · norm_num [mvNm, Mval.value, signFactor, MANT_HI, MV_XBIAS]
  · norm_num [mvNm, Mval.value, signFactor, MANT_HI, MV_XBIAS]

end Ydb
