import Ydb.Addition
import Ydb.Lib.Limbs

/-!
# Extended multiplication

`eb_mul` breaks the eighteen digits of each operand into five limbs of base
`RADIX`, multiplies them by rows and puts the leading eighteen digits of the
product back into two words. The rows are computed in `Option`: a value that does
not fit in an `int4`, an index outside an array and a failing assertion all give
`none`, so a returned value says that none of these happened.

The arrays are lists here, the least significant limb first; row `j` works on the
limbs from index `j` on.
-/

namespace Ydb

open Lib

def RADIX : Nat := 10000

/-- A nonnegative `int4` value. The terms of every sum and product it is used on
are nonnegative, so the intermediate values are no larger. -/
def int4 (x : Nat) : Option Nat := if x < 2 ^ 31 then some x else none

/-! ## The routine -/

/-- Break up 2-4-(3/1)-4-4. -/
def breakWords (w1 w0 : Nat) : List Nat :=
  [w0 % RADIX, w0 / RADIX % RADIX, w1 % (RADIX / 10) * 10 + w0 / (RADIX * RADIX),
    w1 / (RADIX / 10) % RADIX, w1 / (RADIX / 10 * RADIX)]

/-- Add one row: the limbs `m1` times the limb `d`. The last carry goes into the
next limb of the product, and must be zero if there is none. -/
def mulRow (d : Nat) : Nat → List Nat → List Nat → Option (List Nat)
  | carry, [], [] => if carry = 0 then some [] else none
  | carry, [], _ :: rest => some (carry :: rest)
  | carry, m :: m1, p :: prod => do
    let acc ← int4 (m * d + p + carry)
    let rest ← mulRow d (acc / RADIX) m1 prod
    return acc % RADIX :: rest
  | _, _ :: _, [] => none

/-- The row of a zero limb is skipped. -/
def addRow (d : Nat) (m1 prod : List Nat) : Option (List Nat) :=
  if d ≠ 0 then mulRow d 0 m1 prod else some prod

/-- Add the rows, each one limb further. -/
def mulRows (m1 : List Nat) : List Nat → List Nat → Option (List Nat)
  | [], prod => some prod
  | d :: m2, prod => do
    let row ← addRow d m1 prod
    match row with
    | [] => none
    | low :: rest =>
      let higher ← mulRows m1 m2 rest
      return low :: higher

/-- The scale factor of the product and its two words. -/
def eb_mul (v1 v0 u1 u0 : Nat) : Option (Int × Nat × Nat) := do
  let prod ← mulRows (breakWords v1 v0) (breakWords u1 u0) (List.replicate 9 0)
  match prod with
  | [_, _, _, _, prod4, prod5, prod6, prod7, prod8] =>
    if RADIX / 10 ≤ prod8 then
      let p0 ← int4 ((prod6 % 1000 * RADIX + prod5) * (RADIX / 100) + prod4 / 100)
      let p1 ← int4 ((prod8 * RADIX + prod7) * (RADIX / 1000) + prod6 / 1000)
      return (0, p1, p0)
    else
      let p0 ← int4 ((prod6 % 100 * RADIX + prod5) * (RADIX / 10) + prod4 / 10)
      let p1 ← int4 ((prod8 * RADIX + prod7) * (RADIX / 100) + prod6 / 100)
      return (-1, p1, p0)
  | _ => none

/-- Turn a result whose digits allow it into `MV_INT` form. -/
def demote (v : Mval) (exp : Int) (sign : Bool) : Mval :=
  let power : Int := ten_pwr (EXP_INT_OVERF - 1 - exp).toNat
  { v with
    mvtype := mvNmInt
    m1 := if exp = 0 then v.m1 else if sign then v.m1.tdiv (-power) else v.m1.tdiv power }

/-- Store a product or a quotient in its numeric form. -/
def storeExtended (p : Mval) (sgn : Bool) (exp : Int) (m1 m0 : Nat) : Except RtsError Mval :=
  let p := { p with m0 := (m0 : Int), m1 := (m1 : Int) }
  if EXPHI ≤ exp then .error .numoflow
  else if exp < EXPLO then .ok literal_zero
  else if demotable exp m1 m0 then .ok (demote p exp sgn)
  else if m0 = 0 ∧ m1 = 0 then .ok literal_zero
  else .ok { p with mvtype := mvNm, sgn := sgn, e := exp.toNat }

/-- The closing assertion on the high word. -/
def assertMantissa (outcome : Except RtsError Mval) : Option (Except RtsError Mval) :=
  match outcome with
  | .error e => some (.error e)
  | .ok w => if w.m1 < MANT_HI then some (.ok w) else none

/-- The product of two values in float form. -/
def mulExtended (u v p : Mval) : Option (Except RtsError Mval) := do
  let (c, m1, m0) ← eb_mul u.m1.toNat u.m0.toNat v.m1.toNat v.m0.toNat
  assertMantissa (storeExtended p (u.sgn ^^ v.sgn) (u.e + v.e + c - MV_XBIAS) m1 m0)

/-- The operand in float form. -/
def inFloatForm (v : Mval) : Mval := if v.mvtype.int then promote v else v

section Routines

-- `eb_int_mul` multiplies two `MV_INT` values in floating point and reports whether
-- they have to be promoted.
variable (eb_int_mul : Int → Int → Option Int)

/-- Multiply, with both numbers forced. -/
def op_mul (tg : ThreadGbl) (u v p : Mval) : Option (Except RtsError Mval) :=
  if u.mvtype.sqlnull || v.mvtype.sqlnull then some (.ok literalSqlnull)
  else
    match mvForceNum tg u, mvForceNum tg v with
    | .ok u, .ok v =>
      if u.mvtype.int && v.mvtype.int then
        match eb_int_mul u.m1 v.m1 with
        | some m1 => some (.ok { p with mvtype := mvNmInt, m0 := 0, m1 := m1 })
        | none => mulExtended (promote u) (promote v) p
      else mulExtended (inFloatForm u) (inFloatForm v) p
    | .error e, _ => some (.error e)
    | .ok _, .error e => some (.error e)

end Routines

/-! ## Rows -/

theorem int4_eq {x : Nat} (fits : x < 2 ^ 31) : int4 x = some x := if_pos fits

/-- The limbs denote the digits of the words. -/
theorem breakWords_spec {w1 w0 : Nat} (high : w1 ≤ 10 ^ 9) (low : w0 < 10 ^ 9) :
    Nat.ofDigits RADIX (breakWords w1 w0) = w1 * 10 ^ 9 + w0 ∧ Limbs RADIX (breakWords w1 w0) ∧
      (breakWords w1 w0).length = 5 := by
  refine ⟨?_, ?_, rfl⟩
  · simp only [breakWords, RADIX, Nat.ofDigits_cons, Nat.ofDigits_nil]
    norm_num
    omega
  · intro d listed
    simp only [breakWords, RADIX, List.mem_cons, List.not_mem_nil, or_false] at listed ⊢
    omega

/-- A row on limbs that are followed by zeros, or by nothing if it does not
carry. -/
theorem mulRow_spec {d : Nat} (dLimb : d < RADIX) {m1 prod : List Nat} {carry : Nat}
    (m1Limbs : Limbs RADIX m1) (prodLimbs : Limbs RADIX prod) (carryLimb : carry < RADIX)
    (aligned : prod.length = m1.length) :
    ∃ row out, Limbs RADIX row ∧ out < RADIX ∧ row.length = m1.length ∧
      Nat.ofDigits RADIX row + RADIX ^ m1.length * out =
        Nat.ofDigits RADIX prod + d * Nat.ofDigits RADIX m1 + carry ∧
      (∀ after rest, mulRow d carry m1 (prod ++ after :: rest) = some (row ++ out :: rest)) ∧
      (out = 0 → mulRow d carry m1 prod = some row) := by
  induction m1 generalizing prod carry with
  | nil =>
    obtain rfl := List.eq_nil_of_length_eq_zero aligned
    refine ⟨[], carry, Limbs.nil, carryLimb, rfl, ?_, fun _ _ => rfl, ?_⟩
    · simp [Nat.ofDigits_nil]
    · intro none
      rw [mulRow, if_pos none]
  | cons m m1 ih =>
    cases prod with
    | nil => cases aligned
    | cons p prod =>
      have mLimb := m1Limbs.head
      have pLimb := prodLimbs.head
      simp only [RADIX] at dLimb mLimb pLimb carryLimb
      have product : m * d ≤ 9999 * 9999 := Nat.mul_le_mul (by omega) (by omega)
      have fits : int4 (m * d + p + carry) = some (m * d + p + carry) := int4_eq (by omega)
      obtain ⟨row, out, rowLimbs, outLimb, rowLength, value, ahead, last⟩ :=
        ih m1Limbs.tail prodLimbs.tail
          (by simp only [RADIX]; omega : (m * d + p + carry) / RADIX < RADIX) (Nat.succ.inj aligned)
      have digits := Nat.div_add_mod (m * d + p + carry) RADIX
      refine ⟨(m * d + p + carry) % RADIX :: row, out,
        rowLimbs.cons (Nat.mod_lt _ (by decide)), outLimb, by simp [rowLength], ?_, ?_, ?_⟩
      · simp only [Nat.ofDigits_cons, List.length_cons, Nat.pow_succ]
        generalize Nat.ofDigits RADIX row = rowValue at *
        generalize Nat.ofDigits RADIX prod = prodValue at *
        generalize Nat.ofDigits RADIX m1 = m1Value at *
        generalize (m * d + p + carry) / RADIX = high at *
        generalize (m * d + p + carry) % RADIX = low at *
        calc low + RADIX * rowValue + RADIX ^ m1.length * RADIX * out
            = low + RADIX * (rowValue + RADIX ^ m1.length * out) := by ring
          _ = RADIX * high + low + RADIX * (prodValue + d * m1Value) := by
              rw [value]
              ring
          _ = p + RADIX * prodValue + d * (m + RADIX * m1Value) + carry := by
              rw [digits]
              ring
      · intro after rest
        rw [List.cons_append, mulRow, fits]
        dsimp only [Option.bind_eq_bind, Option.bind_some]
        rw [ahead after rest]
        rfl
      · intro none
        rw [mulRow, fits]
        dsimp only [Option.bind_eq_bind, Option.bind_some]
        rw [last none]
        rfl

/-- A row as the loop adds it; skipping the row of a zero limb changes nothing. -/
theorem addRow_spec {d : Nat} (dLimb : d < RADIX) {m1 prod : List Nat} (m1Limbs : Limbs RADIX m1)
    (prodLimbs : Limbs RADIX prod) (aligned : prod.length = m1.length) :
    ∃ row out, Limbs RADIX row ∧ out < RADIX ∧ row.length = m1.length ∧
      Nat.ofDigits RADIX row + RADIX ^ m1.length * out =
        Nat.ofDigits RADIX prod + d * Nat.ofDigits RADIX m1 ∧
      (∀ n, addRow d m1 (prod ++ List.replicate (n + 1) 0) =
        some (row ++ out :: List.replicate n 0)) ∧
      (out = 0 → addRow d m1 prod = some row) := by
  by_cases zero : d = 0
  · refine ⟨prod, 0, prodLimbs, by decide, aligned, ?_, ?_, ?_⟩
    · rw [zero, zero_mul, mul_zero]
    · intro n
      rw [addRow, if_neg (not_not.mpr zero)]
      rfl
    · intro _
      rw [addRow, if_neg (not_not.mpr zero)]
  · obtain ⟨row, out, rowLimbs, outLimb, rowLength, value, ahead, last⟩ :=
      mulRow_spec dLimb m1Limbs prodLimbs (by decide : 0 < RADIX) aligned
    refine ⟨row, out, rowLimbs, outLimb, rowLength, value, ?_, ?_⟩
    · intro n
      rw [addRow, if_pos zero]
      exact ahead 0 _
    · rw [addRow, if_pos zero]
      exact last

/-- All rows: the limbs of the product, on limbs followed by one zero for every row
but the last. -/
theorem mulRows_spec {m1 m2 prod : List Nat} (m1Limbs : Limbs RADIX m1) (m2Limbs : Limbs RADIX m2)
    (prodLimbs : Limbs RADIX prod) (aligned : prod.length = m1.length) (nonempty : 0 < m1.length)
    {n : Nat} (rows : m2.length = n + 1)
    (fits : Nat.ofDigits RADIX prod + Nat.ofDigits RADIX m1 * Nat.ofDigits RADIX m2 <
      RADIX ^ (m1.length + n)) :
    ∃ limbs, mulRows m1 m2 (prod ++ List.replicate n 0) = some limbs ∧ Limbs RADIX limbs ∧
      limbs.length = m1.length + n ∧
      Nat.ofDigits RADIX limbs =
        Nat.ofDigits RADIX prod + Nat.ofDigits RADIX m1 * Nat.ofDigits RADIX m2 := by
  induction m2 generalizing prod n with
  | nil => cases rows
  | cons d m2 ih =>
    obtain ⟨row, out, rowLimbs, outLimb, rowLength, value, ahead, last⟩ :=
      addRow_spec m2Limbs.head m1Limbs prodLimbs aligned
    obtain ⟨low, high, rfl⟩ := List.exists_cons_of_length_pos (by omega : 0 < row.length)
    rw [Nat.ofDigits_cons] at fits ⊢
    rw [Nat.ofDigits_cons] at value
    cases n with
    | zero =>
      obtain rfl := List.eq_nil_of_length_eq_zero (Nat.succ.inj rows)
      rw [Nat.ofDigits_nil, mul_zero, add_zero, mul_comm] at fits ⊢
      rw [Nat.add_zero] at fits
      have none : out = 0 := by
        by_contra carried
        have large : RADIX ^ m1.length ≤ RADIX ^ m1.length * out :=
          Nat.le_mul_of_pos_right _ (by omega)
        omega
      refine ⟨low :: high, ?_, rowLimbs, rowLength, ?_⟩
      · rw [List.replicate_zero, List.append_nil, mulRows, last none]
        rfl
      · rw [Nat.ofDigits_cons, Nat.add_zero, ← value, none, Nat.mul_zero, Nat.add_zero]
    | succ n =>
      have length : (high ++ [out]).length = m1.length := by
        rw [List.length_append, List.length_singleton]
        exact rowLength
      have shifted : low + RADIX * (Nat.ofDigits RADIX (high ++ [out]) +
            Nat.ofDigits RADIX m1 * Nat.ofDigits RADIX m2) =
          Nat.ofDigits RADIX prod + Nat.ofDigits RADIX m1 * (d + RADIX * Nat.ofDigits RADIX m2) := by
        have power : RADIX ^ m1.length = RADIX * RADIX ^ high.length := by
          rw [← Nat.pow_succ', ← rowLength]
          rfl
        rw [power] at value
        rw [ofDigits_concat]
        linarith
      have room : Nat.ofDigits RADIX (high ++ [out]) +
          Nat.ofDigits RADIX m1 * Nat.ofDigits RADIX m2 < RADIX ^ (m1.length + n) := by
        apply Nat.lt_of_mul_lt_mul_left (a := RADIX)
        rw [← Nat.pow_succ']
        have : m1.length + (n + 1) = (m1.length + n).succ := rfl
        rw [← this]
        omega
      obtain ⟨limbs, result, limbsOk, limbsLength, limbsValue⟩ :=
        ih m2Limbs.tail (rowLimbs.tail.append (Limbs.nil.cons outLimb)) length
          (Nat.succ.inj rows) room
      refine ⟨low :: limbs, ?_, limbsOk.cons rowLimbs.head, ?_, ?_⟩
      · rw [mulRows, ahead n]
        rw [List.append_assoc, List.singleton_append] at result
        dsimp only [Option.bind_eq_bind, Option.bind_some, List.cons_append]
        rw [result]
        rfl
      · rw [List.length_cons, limbsLength]
        rfl
      · rw [Nat.ofDigits_cons, limbsValue, shifted]

/-- Five leading limbs with the tail below them cut off. -/
theorem leading_limbs {low a4 a5 a6 a7 a8 total : Nat} (lowLt : low < 10 ^ 16)
    (value : total = low + 10 ^ 16 *
      (a4 + RADIX * (a5 + RADIX * (a6 + RADIX * (a7 + RADIX * a8))))) :
    ((a8 * RADIX + a7) * (RADIX / 1000) + a6 / 1000) * 10 ^ 9 +
        ((a6 % 1000 * RADIX + a5) * (RADIX / 100) + a4 / 100) = total / 10 ^ 18 ∧
      ((a8 * RADIX + a7) * (RADIX / 100) + a6 / 100) * 10 ^ 9 +
        ((a6 % 100 * RADIX + a5) * (RADIX / 10) + a4 / 10) = total / 10 ^ 17 := by
  have cut : total / 10 ^ 16 = a4 + RADIX * (a5 + RADIX * (a6 + RADIX * (a7 + RADIX * a8))) := by
    rw [value, Nat.add_mul_div_left _ _ (by decide), Nat.div_eq_of_lt lowLt, Nat.zero_add]
  have halves : total / 10 ^ 18 = total / 10 ^ 16 / 100 ∧ total / 10 ^ 17 = total / 10 ^ 16 / 10 := by
    rw [Nat.div_div_eq_div_mul, Nat.div_div_eq_div_mul]
    exact ⟨rfl, rfl⟩
  rw [halves.1, halves.2, cut]
  simp only [RADIX]
  clear value cut halves lowLt
  constructor
  · apply Nat.le_antisymm <;> omega
  · apply Nat.le_antisymm <;> omega

/-- Assembled 4-4-1/3-4-2, the words are normal from a leading limb of four digits
on. -/
theorem normal_long {a4 a5 a6 a7 a8 : Nat} (l4 : a4 < 10000) (l5 : a5 < 10000) (l6 : a6 < 10000)
    (l7 : a7 < 10000) (l8 : a8 < 10000) (nine : RADIX / 10 ≤ a8) :
    NormalWords ((a8 * RADIX + a7) * (RADIX / 1000) + a6 / 1000)
      ((a6 % 1000 * RADIX + a5) * (RADIX / 100) + a4 / 100) := by
  simp only [RADIX] at nine ⊢
  constructor
  · simp only [MANT_LO]
    omega
  · simp only [MANT_HI]
    omega
  · simp only [MANT_HI]
    omega

/-- Assembled 3-4-2/2-4-3, the words are normal for a leading limb of three digits. -/
theorem normal_short {a4 a5 a6 a7 a8 : Nat} (l4 : a4 < 10000) (l5 : a5 < 10000) (l6 : a6 < 10000)
    (l7 : a7 < 10000) (leading : 100 ≤ a8) (nine : ¬ RADIX / 10 ≤ a8) :
    NormalWords ((a8 * RADIX + a7) * (RADIX / 100) + a6 / 100)
      ((a6 % 100 * RADIX + a5) * (RADIX / 10) + a4 / 10) := by
  simp only [RADIX] at nine ⊢
  constructor
  · simp only [MANT_LO]
    omega
  · simp only [MANT_HI]
    omega
  · simp only [MANT_HI]
    omega

theorem nine_limbs {limbs : List Nat} (length : limbs.length = 9) :
    ∃ a0 a1 a2 a3 a4 a5 a6 a7 a8, limbs = [a0, a1, a2, a3, a4, a5, a6, a7, a8] := by
  refine ⟨limbs.getD 0 0, limbs.getD 1 0, limbs.getD 2 0, limbs.getD 3 0, limbs.getD 4 0,
    limbs.getD 5 0, limbs.getD 6 0, limbs.getD 7 0, limbs.getD 8 0, ?_⟩
  apply List.ext_getElem
  · simp [length]
  · intro i _ inside
    simp only [List.length_cons, List.length_nil] at inside
    interval_cases i <;> simp [length]

/-- The leading eighteen digits of a product of thirty-five or thirty-six. The first
factor may be the power `10 ^ 18` itself. -/
theorem eb_mul_spec {v1 v0 u1 u0 : Nat} (vLow : v0 < 10 ^ 9) (vLo : 10 ^ 17 ≤ v1 * 10 ^ 9 + v0)
    (vHi : v1 * 10 ^ 9 + v0 ≤ 10 ^ 18) (uNormal : NormalWords u1 u0) :
    ∃ c p1 p0, eb_mul v1 v0 u1 u0 = some (c, p1, p0) ∧ NormalWords p1 p0 ∧
      ((c = 0 ∧ p1 * 10 ^ 9 + p0 = (v1 * 10 ^ 9 + v0) * (u1 * 10 ^ 9 + u0) / 10 ^ 18) ∨
        (c = -1 ∧ p1 * 10 ^ 9 + p0 = (v1 * 10 ^ 9 + v0) * (u1 * 10 ^ 9 + u0) / 10 ^ 17)) := by
  obtain ⟨uLo, uHi, uHigh, uLow⟩ := uNormal.small
  obtain ⟨vValue, vLimbs, vLength⟩ := breakWords_spec (by omega : v1 ≤ 10 ^ 9) vLow
  obtain ⟨uValue, uLimbs, uLength⟩ := breakWords_spec (by omega : u1 ≤ 10 ^ 9) uLow
  have below : (v1 * 10 ^ 9 + v0) * (u1 * 10 ^ 9 + u0) < 10 ^ 18 * 10 ^ 18 :=
    Nat.mul_lt_mul_of_le_of_lt vHi uHi (by decide)
  have above : 10 ^ 17 * 10 ^ 17 ≤ (v1 * 10 ^ 9 + v0) * (u1 * 10 ^ 9 + u0) :=
    Nat.mul_le_mul vLo uLo
  have zeros : Limbs RADIX (List.replicate 5 0) := by
    intro d listed
    rw [List.eq_of_mem_replicate listed]
    decide
  obtain ⟨limbs, result, limbsOk, length, value⟩ := mulRows_spec
    vLimbs uLimbs zeros (by rw [vLength]; rfl) (by omega) (n := 4) uLength
    (by rw [vValue, uValue, vLength, Nat.ofDigits_replicate_zero, Nat.zero_add]; exact below)
  rw [vValue, uValue, Nat.ofDigits_replicate_zero, Nat.zero_add] at value
  rw [vLength] at length
  obtain ⟨a0, a1, a2, a3, a4, a5, a6, a7, a8, rfl⟩ := nine_limbs length
  have limb : ∀ a ∈ [a0, a1, a2, a3, a4, a5, a6, a7, a8], a < 10000 := limbsOk
  simp only [List.mem_cons, List.not_mem_nil, or_false, forall_eq_or_imp, forall_eq] at limb
  obtain ⟨l0, l1, l2, l3, l4, l5, l6, l7, l8⟩ := limb
  have lowLt : a0 + 10000 * (a1 + 10000 * (a2 + 10000 * a3)) < 10 ^ 16 := by omega
  have total : (v1 * 10 ^ 9 + v0) * (u1 * 10 ^ 9 + u0) =
      a0 + 10000 * (a1 + 10000 * (a2 + 10000 * a3)) +
        10 ^ 16 * (a4 + RADIX * (a5 + RADIX * (a6 + RADIX * (a7 + RADIX * a8)))) := by
    rw [← value]
    simp only [Nat.ofDigits_cons, Nat.ofDigits_nil, RADIX]
    ring
  obtain ⟨long, short⟩ := leading_limbs lowLt total
  have product : List.replicate 9 0 = List.replicate 5 0 ++ List.replicate 4 0 := rfl
  rw [eb_mul, product, result]
  dsimp only [Option.bind_eq_bind, Option.bind_some]
  by_cases nine : RADIX / 10 ≤ a8
  · have words := normal_long l4 l5 l6 l7 l8 nine
    rw [if_pos nine, int4_eq (lt_trans words.low (by decide)), Option.bind_some,
      int4_eq (lt_trans words.hi (by decide)), Option.bind_some]
    exact ⟨_, _, _, rfl, words, .inl ⟨rfl, long⟩⟩
  · have leading : 100 ≤ a8 := by
      rw [total] at above
      simp only [RADIX] at above
      clear value total long short result below
      by_contra small
      have : a4 + 10000 * (a5 + 10000 * (a6 + 10000 * (a7 + 10000 * a8))) < 10 ^ 18 := by omega
      omega
    have words := normal_short l4 l5 l6 l7 leading nine
    rw [if_neg nine, int4_eq (lt_trans words.low (by decide)), Option.bind_some,
      int4_eq (lt_trans words.hi (by decide)), Option.bind_some]
    exact ⟨_, _, _, rfl, words, .inr ⟨rfl, short⟩⟩

/-! ## The product of two numbers -/

/-- A stored product or quotient is the canonical form of its words. -/
theorem storeExtended_delivers (p : Mval) (sgn : Bool) (exp : Int) {m1 m0 : Nat}
    (normal : NormalWords m1 m0) :
    Delivers (normal.decimal sgn exp).value (storeExtended p sgn exp m1 m0) := by
  have positive : ¬ (m0 = 0 ∧ m1 = 0) := by
    rintro ⟨_, zero⟩
    have := normal.lo
    rw [zero] at this
    exact absurd this (by decide)
  apply Delivers.of_words
  · intro large
    rw [storeExtended, if_pos large]
  · intro small
    have notLarge : ¬ (EXPHI : Int) ≤ exp := by
      simp only [EXPLO, EXPHI] at small ⊢
      omega
    refine ⟨literal_zero, ?_, ⟨rfl, rfl, by decide⟩, rfl⟩
    rw [storeExtended, if_neg notLarge, if_pos small]
  · intro demoted
    obtain ⟨below, above, _, _⟩ := (demotable_iff exp m1 m0).mp demoted
    have range : ¬ (EXPHI : Int) ≤ exp ∧ ¬ exp < (EXPLO : Int) := by
      simp only [EXPLO, EXPHI]
      omega
    refine ⟨_, by rw [storeExtended, if_neg range.1, if_neg range.2, if_pos demoted], rfl, rfl, ?_⟩
    dsimp only [demote]
    rw [if_neg (by omega : ¬ exp = 0)]
    cases sgn
    · exact (Int.ofNat_tdiv _ _).symm
    · rw [if_pos rfl, if_pos rfl, Int.tdiv_neg, Int.ofNat_tdiv]
  · intro notInt above below
    refine ⟨_, by rw [storeExtended, if_neg (not_le.mpr below), if_neg (not_lt.mpr above), notInt,
      if_neg Bool.false_ne_true, if_neg positive], rfl, rfl, rfl, ?_, rfl, rfl⟩
    have nonneg : 0 ≤ exp := by
      simp only [EXPLO] at above
      omega
    exact Int.toNat_of_nonneg nonneg

/-- The closing assertion holds of every delivered value. -/
theorem Delivers.asserted {r : ℚ} {outcome : Except RtsError Mval} (delivers : Delivers r outcome) :
    assertMantissa outcome = some outcome := by
  cases outcome with
  | error e => rfl
  | ok w =>
    have bounded : w.m1 < MANT_HI := by
      rcases delivers.canonical rfl with isInt | ⟨isFloat, _⟩
      · have := isInt.small
        omega
      · exact isFloat.m1_hi
    rw [assertMantissa, if_pos bounded]

/-- Nonzero numbers in float form. -/
theorem inFloatForm_isFloat {v : Mval} (form : v.IsInt ∨ v.IsFloat) (nonzero : v.value ≠ 0) :
    (inFloatForm v).IsFloat ∧ (inFloatForm v).value = v.value := by
  rcases form with isInt | isFloat
  · have digits : v.m1 ≠ 0 := fun zero => nonzero (isInt.value_eq_zero.mpr zero)
    rw [inFloatForm, if_pos isInt.int]
    exact promote_isFloat isInt digits
  · have float : inFloatForm v = v := by rw [inFloatForm, isFloat.int, if_neg Bool.false_ne_true]
    rw [float]
    exact ⟨isFloat, rfl⟩

theorem inFloatForm_notNull {v : Mval} (notNull : v.mvtype.sqlnull = false) :
    (inFloatForm v).mvtype.sqlnull = false := by
  unfold inFloatForm promote
  split
  · split <;> rfl
  · exact notNull

/-- Signs multiply. -/
theorem signFactor_mul (s t : Bool) : signFactor (s ^^ t) = signFactor s * signFactor t := by
  cases s <;> cases t <;> simp [signFactor]

/-- A float as words. -/
theorem Mval.IsFloat.value_words {v : Mval} (isFloat : v.IsFloat) :
    v.value = signFactor v.sgn * (((v.m1.toNat * 10 ^ 9 + v.m0.toNat : Nat) : ℚ) *
      10 ^ ((v.e : Int) - MV_XBIAS - 18)) := isFloat.toDecimal_value.symm

/-- A number in float form whose high word may have one digit too many, after a carry
into it. -/
structure Mval.IsCarried (v : Mval) : Prop where
  nm : v.mvtype.nm = true
  int : v.mvtype.int = false
  notNull : v.mvtype.sqlnull = false
  m1_lo : MANT_LO ≤ v.m1
  m0_lo : 0 ≤ v.m0
  m0_hi : v.m0 < MANT_HI
  fits : v.m1 * MANT_HI + v.m0 ≤ MANT_HI * MANT_HI

theorem Mval.IsCarried.value_words {v : Mval} (carried : v.IsCarried) :
    v.value = signFactor v.sgn * (((v.m1.toNat * 10 ^ 9 + v.m0.toNat : Nat) : ℚ) *
      10 ^ ((v.e : Int) - MV_XBIAS - 18)) := by
  have high : ((v.m1.toNat : ℕ) : ℚ) = v.m1 := by
    have lower := carried.m1_lo
    simp only [MANT_LO] at lower
    exact_mod_cast Int.toNat_of_nonneg (by omega)
  have low : ((v.m0.toNat : ℕ) : ℚ) = v.m0 := by
    exact_mod_cast Int.toNat_of_nonneg carried.m0_lo
  simp only [Mval.value, carried.int, Bool.false_eq_true, if_false, MANT_HI]
  push_cast
  rw [high, low]
  ring

theorem Mval.IsFloat.carried {v : Mval} (isFloat : v.IsFloat) (notNull : v.mvtype.sqlnull = false) :
    v.IsCarried where
  nm := isFloat.nm
  int := isFloat.int
  notNull := notNull
  m1_lo := isFloat.m1_lo
  m0_lo := isFloat.m0_lo
  m0_hi := isFloat.m0_hi
  fits := by
    have high := isFloat.m1_hi
    have low := isFloat.m0_hi
    simp only [MANT_HI] at high low ⊢
    omega

/-- Words that a magnitude lies just above are its leading eighteen digits. -/
theorem NormalWords.truncateTo_eq {m1 m0 : Nat} (normal : NormalWords m1 m0) (sgn : Bool) (exp : Int)
    {q : ℚ} (lo : (m1 * 10 ^ 9 + m0 : Nat) * (10 : ℚ) ^ (exp - MV_XBIAS - 18) ≤ q)
    (hi : q < ((m1 * 10 ^ 9 + m0 : Nat) + 1) * (10 : ℚ) ^ (exp - MV_XBIAS - 18)) :
    truncateTo 10 18 (signFactor sgn * q) = (normal.decimal sgn exp).value := by
  obtain ⟨wide, narrow, _, _⟩ := normal.small
  rw [truncateTo_signed, NormalWords.decimal_value]
  congr 1
  apply truncateTo_of_bounds (by decide) (by omega) narrow
  · rw [Nat.cast_ofNat]
    exact lo
  · rw [Nat.cast_ofNat]
    exact hi

/-- A quotient by a power of ten, seen from the next higher unit. -/
theorem quotient_bounds (total shift : Nat) (k : Int) :
    ((total / 10 ^ shift : Nat) : ℚ) * 10 ^ (k + shift) ≤ total * (10 : ℚ) ^ k ∧
      total * (10 : ℚ) ^ k < ((total / 10 ^ shift : Nat) + 1) * (10 : ℚ) ^ (k + shift) := by
  have unit : (0 : ℚ) < 10 ^ k := zpow_pos (by norm_num) _
  have power : (10 : ℚ) ^ (k + shift) = 10 ^ shift * 10 ^ k := by
    rw [← zpow_natCast, ← zpow_add₀ (by norm_num), add_comm]
  have below : total / 10 ^ shift * 10 ^ shift ≤ total := Nat.div_mul_le_self _ _
  have above : total < (total / 10 ^ shift + 1) * 10 ^ shift := by
    rw [Nat.mul_comm]
    exact Nat.lt_mul_div_succ _ (Nat.pow_pos (by decide))
  rw [power, ← mul_assoc, ← mul_assoc]
  constructor
  · exact mul_le_mul_of_nonneg_right (by exact_mod_cast below) unit.le
  · exact mul_lt_mul_of_pos_right (by exact_mod_cast above) unit

/-- The product of two floats is the exact product truncated to eighteen digits. -/
theorem mulExtended_delivers {u v : Mval} (uCarried : u.IsCarried) (vFloat : v.IsFloat) (p : Mval) :
    ∃ outcome, mulExtended u v p = some outcome ∧
      Delivers (truncateTo 10 18 (u.value * v.value)) outcome := by
  have words : u.m0.toNat < 10 ^ 9 ∧ 10 ^ 17 ≤ u.m1.toNat * 10 ^ 9 + u.m0.toNat ∧
      u.m1.toNat * 10 ^ 9 + u.m0.toNat ≤ 10 ^ 18 := by
    have high := uCarried.m1_lo
    have low := And.intro uCarried.m0_lo uCarried.m0_hi
    have fits := uCarried.fits
    simp only [MANT_LO, MANT_HI] at high low fits
    omega
  obtain ⟨c, p1, p0, product, normal, digits⟩ :=
    eb_mul_spec words.1 words.2.1 words.2.2 (NormalWords.of_float vFloat)
  have stored := storeExtended_delivers p (u.sgn ^^ v.sgn) ((u.e : Int) + v.e + c - MV_XBIAS) normal
  refine ⟨storeExtended p (u.sgn ^^ v.sgn) ((u.e : Int) + v.e + c - MV_XBIAS) p1 p0, ?_, ?_⟩
  · rw [mulExtended, product]
    exact stored.asserted
  have exact : u.value * v.value = signFactor (u.sgn ^^ v.sgn) *
      (((u.m1.toNat * 10 ^ 9 + u.m0.toNat) * (v.m1.toNat * 10 ^ 9 + v.m0.toNat) : Nat) *
        (10 : ℚ) ^ ((u.e : Int) - MV_XBIAS - 18 + (v.e - MV_XBIAS - 18))) := by
    rw [uCarried.value_words, vFloat.value_words, signFactor_mul, zpow_add₀ (by norm_num), Nat.cast_mul]
    ring
  have scaled : ∃ shift : Nat, (shift : Int) = 18 + c ∧ p1 * 10 ^ 9 + p0 =
      (u.m1.toNat * 10 ^ 9 + u.m0.toNat) * (v.m1.toNat * 10 ^ 9 + v.m0.toNat) / 10 ^ shift := by
    rcases digits with ⟨rfl, long⟩ | ⟨rfl, short⟩
    · exact ⟨18, rfl, long⟩
    · exact ⟨17, rfl, short⟩
  obtain ⟨shift, factor, words⟩ := scaled
  have unit : (u.e : Int) + v.e + c - MV_XBIAS - MV_XBIAS - 18 =
      (u.e : Int) - MV_XBIAS - 18 + (v.e - MV_XBIAS - 18) + shift := by
    rw [factor]
    ring
  obtain ⟨below, above⟩ := quotient_bounds
    ((u.m1.toNat * 10 ^ 9 + u.m0.toNat) * (v.m1.toNat * 10 ^ 9 + v.m0.toNat)) shift
    ((u.e : Int) - MV_XBIAS - 18 + (v.e - MV_XBIAS - 18))
  rw [← words, ← unit] at below above
  rw [exact, normal.truncateTo_eq _ ((u.e : Int) + v.e + c - MV_XBIAS) below above]
  exact stored

/-- `op_mul` on operands not both in `MV_INT` form. -/
theorem op_mul_delivers (eb_int_mul : Int → Int → Option Int) (tg : ThreadGbl) {u v : Mval}
    (uCanonical : u.Canonical) (vCanonical : v.Canonical) (uNotNull : u.mvtype.sqlnull = false)
    (vNotNull : v.mvtype.sqlnull = false) (uNonzero : u.value ≠ 0) (vNonzero : v.value ≠ 0)
    (mixed : (u.mvtype.int && v.mvtype.int) = false) (p : Mval) :
    ∃ outcome, op_mul eb_int_mul tg u v p = some outcome ∧
      Delivers (truncateTo 10 18 (u.value * v.value)) outcome := by
  have uForced := mvForceNum_of_canonical tg uCanonical uNotNull
  have vForced := mvForceNum_of_canonical tg vCanonical vNotNull
  obtain ⟨uFloat, uValue⟩ := inFloatForm_isFloat uCanonical.form uNonzero
  obtain ⟨vFloat, vValue⟩ := inFloatForm_isFloat vCanonical.form vNonzero
  have body : op_mul eb_int_mul tg u v p = mulExtended (inFloatForm u) (inFloatForm v) p := by
    simp only [op_mul, uNotNull, vNotNull, Bool.or_self, Bool.false_eq_true, if_false, uForced,
      vForced, mixed]
  rw [body, ← uValue, ← vValue]
  exact mulExtended_delivers (uFloat.carried (inFloatForm_notNull uNotNull)) vFloat p

/-- `op_mul` on values in float form, the first of which may have been carried. -/
theorem op_mul_eq (eb_int_mul : Int → Int → Option Int) (tg : ThreadGbl) {u v : Mval}
    (uCarried : u.IsCarried) (vFloat : v.IsFloat) (vNotNull : v.mvtype.sqlnull = false) (p : Mval) :
    op_mul eb_int_mul tg u v p = mulExtended u v p := by
  simp only [op_mul, uCarried.notNull, vNotNull, Bool.or_self, Bool.false_eq_true, if_false,
    mvForceNum_eq tg uCarried.nm uCarried.notNull, mvForceNum_eq tg vFloat.nm vNotNull, inFloatForm,
    uCarried.int, vFloat.int, Bool.and_self]

end Ydb
