import Mathlib.Data.Sum.Order
import Mathlib.Order.CompletePartialOrder
import Mathlib.Data.List.Lex
import Ydb.LocalTree
import Ydb.NumericForms

/-!
# The order of local subscripts

Local variables collate numbers by value before strings by bytes, and
`$ZYSQLNULL` last. The comparison that a lookup makes is one of three, after the
kind of the subscript looked for; all three agree with this order, whichever of
its numeric forms the key of the node is in. An integer key may carry the float
form it was given by an earlier comparison.
-/

namespace Ydb

open Lib

/-- Local subscripts in collation order. -/
abbrev LocalSubscript := ℚ ⊕ₗ (List ℕ ⊕ₗ Unit)

/-- The subscript that a key stands for. -/
def TreeKeySubscr.subscript (key : TreeKeySubscr) : LocalSubscript :=
  if key.canonical then Sum.inlₗ key.value
  else if key.mvtype.sqlnull then Sum.inrₗ (Sum.inrₗ ())
  else Sum.inrₗ (Sum.inlₗ (key.str.map UInt8.toNat))

/-- A subscript the lookups accept: marked as a number only if it is in one of
the numeric forms. -/
def TreeKeySubscr.Valid (key : TreeKeySubscr) : Prop :=
  key.canonical = true → key.IsInt ∨ key.IsFloat

/-- The key stored in a node, read as `LV_NUM_NODE_GET_KEY` and
`LV_STR_NODE_GET_KEY` read it. -/
def LvTreeNode.key (n : LvTreeNode) : TreeKeySubscr where
  mvtype := n.key_mvtype
  sgn := n.key_sgn
  e := n.key_e
  m0 := n.key_m0
  m1 := if n.key_mvtype.int then n.key_m0 else n.key_m1
  str := n.key_str
  canonical := n.key_canonical

/-- The subscript of a node. -/
def LvTreeNode.subscript (n : LvTreeNode) : LocalSubscript := n.key.subscript

/-- The float fields of an integer key hold what the conversion puts there. -/
def LvTreeNode.Converted (n : LvTreeNode) : Prop :=
  if n.key_m0 = 0 then n.key_e = 0
  else
    n.key_sgn = decide (n.key_m0 < 0) ∧
    n.key_m1 = n.key_m0.natAbs *
      ten_pwr (NUM_DEC_DG_1L - countPowers n.key_m0.natAbs NUM_DEC_DG_1L 0) ∧
    n.key_e = countPowers n.key_m0.natAbs NUM_DEC_DG_1L 0 + EXP_INT_UNDERF

/-- The key of a node is in order: exactly the keys that are not numbers are marked as
strings, and an integer key that is marked as converted carries its float form. -/
structure LvTreeNode.ValidKey (n : LvTreeNode) : Prop where
  valid : n.key.Valid
  marked : n.key_mvtype.str = !n.key_canonical
  notInt : n.key_canonical = false → n.key_mvtype.int = false
  converted : n.key_mvtype.int = true → n.key_iconv = true → n.Converted

/-- The sign of a comparison tells the order of two values. -/
def Orders {κ : Type*} [LT κ] (result : Int) (x y : κ) : Prop :=
  (result < 0 ∧ x < y) ∨ (result = 0 ∧ x = y) ∨ (0 < result ∧ y < x)

/-! ## Numbers -/

theorem countPowers_eq (m : Nat) (n rounds exp : Nat) (narrow : n ≤ 9) (lo : 10 ^ (n - 1) ≤ m)
    (hi : m < 10 ^ n) (below : exp ≤ n) (enough : n ≤ exp + rounds) :
    countPowers m rounds exp = n := by
  induction rounds generalizing exp with
  | zero =>
    rw [countPowers]
    omega
  | succ rounds ih =>
    rw [countPowers, ten_pwr_eq exp (by omega)]
    by_cases reached : exp = n
    · rw [if_neg (by rw [reached]; omega)]
      exact reached
    · have step : 10 ^ exp ≤ m := le_trans (Nat.pow_le_pow_right (by decide) (by omega)) lo
      rw [if_pos step]
      exact ih (exp + 1) (by omega) (by omega)

/-- The nine digits and the exponent of a nonzero integer. -/
theorem promoted_digits {m : Int} (nonzero : m ≠ 0) (small : m.natAbs < MANT_HI) :
    ∃ n, n ≤ 9 ∧ 1 ≤ n ∧ countPowers m.natAbs NUM_DEC_DG_1L 0 = n ∧
      MANT_LO ≤ m.natAbs * ten_pwr (NUM_DEC_DG_1L - n) ∧
      m.natAbs * ten_pwr (NUM_DEC_DG_1L - n) < MANT_HI ∧
      ten_pwr (NUM_DEC_DG_1L - n) = 10 ^ (9 - n) := by
  obtain ⟨n, some, narrow, lo, hi⟩ := exists_width m.natAbs (by omega) small
  have power : ten_pwr (NUM_DEC_DG_1L - n) = 10 ^ (9 - n) := ten_pwr_eq _ (by simp [NUM_DEC_DG_1L])
  refine ⟨n, narrow, some, ?_, ?_, ?_, power⟩
  · exact countPowers_eq m.natAbs n 9 0 narrow lo hi (by omega) (by omega)
  · rw [power]
    calc MANT_LO = 10 ^ (n - 1) * 10 ^ (9 - n) := by
          rw [← Nat.pow_add, show n - 1 + (9 - n) = 8 by omega]
          rfl
      _ ≤ _ := Nat.mul_le_mul_right _ lo
  · rw [power]
    calc m.natAbs * 10 ^ (9 - n) < 10 ^ n * 10 ^ (9 - n) :=
          Nat.mul_lt_mul_of_pos_right hi (Nat.pow_pos (by decide))
      _ = MANT_HI := by
          rw [← Nat.pow_add, show n + (9 - n) = 9 by omega]
          rfl

/-- The promoted digits and exponent denote the integer's value. -/
theorem promoted_value {m : Int} {n : Nat} (narrow : n ≤ 9) (power : ten_pwr (NUM_DEC_DG_1L - n) = 10 ^ (9 - n)) :
    signFactor (decide (m < 0)) * (((m.natAbs * ten_pwr (NUM_DEC_DG_1L - n) : Nat) : ℚ) * MANT_HI) *
      10 ^ (((EXP_INT_UNDERF + n : Nat) : ℤ) - MV_XBIAS - 18) = (m : ℚ) / MV_BIAS := by
  have scale : (10 : ℚ) ^ (9 - n) * 10 ^ (9 : ℕ) *
      10 ^ (((EXP_INT_UNDERF + n : Nat) : ℤ) - MV_XBIAS - 18) = 1 / 1000 := by
    rw [← zpow_natCast, ← zpow_natCast, ← zpow_add₀ (by norm_num), ← zpow_add₀ (by norm_num),
      Nat.cast_sub narrow]
    rw [show ((9 : ℕ) : ℤ) - n + (9 : ℕ) + (((EXP_INT_UNDERF + n : Nat) : ℤ) - MV_XBIAS - 18) = -3
      by simp only [EXP_INT_UNDERF, MV_XBIAS]; push_cast; ring]
    norm_num
  have signed : signFactor (decide (m < 0)) * (m.natAbs : ℚ) = m := by
    rcases lt_or_ge m 0 with negative | positive
    · have magnitude : ((m.natAbs : ℕ) : ℤ) = -m := by omega
      have cast : ((m.natAbs : ℕ) : ℚ) = -m := by
        rw [← Int.cast_natCast (R := ℚ), magnitude, Int.cast_neg]
      rw [cast]
      simp [signFactor, negative]
    · have magnitude : ((m.natAbs : ℕ) : ℤ) = m := by omega
      have cast : ((m.natAbs : ℕ) : ℚ) = m := by rw [← Int.cast_natCast (R := ℚ), magnitude]
      rw [cast]
      simp [signFactor, not_lt.mpr positive]
  rw [power]
  calc _ = (signFactor (decide (m < 0)) * (m.natAbs : ℚ)) * ((10 : ℚ) ^ (9 - n) * 10 ^ (9 : ℕ) *
        10 ^ (((EXP_INT_UNDERF + n : Nat) : ℤ) - MV_XBIAS - 18)) := by
        simp only [MANT_HI]
        push_cast
        ring
    _ = _ := by
        rw [scale, signed]
        simp only [MV_BIAS]
        push_cast
        ring

/-- Promotion gives a float of the same value. -/
theorem promote_isFloat {v : Mval} (isInt : v.IsInt) (nonzero : v.m1 ≠ 0) :
    (promote v).IsFloat ∧ (promote v).value = v.value := by
  obtain ⟨n, narrow, some, count, lo, hi, power⟩ := promoted_digits nonzero isInt.small
  have shape : promote v = { v with
      mvtype := ⟨true, false, false, false, false⟩
      sgn := decide (v.m1 < 0)
      e := EXP_INT_UNDERF + n
      m0 := 0
      m1 := (v.m1.natAbs * ten_pwr (NUM_DEC_DG_1L - n) : Nat) } := by
    rw [promote, if_neg nonzero]
    simp only [count]
    push_cast
    rfl
  constructor
  · rw [shape]
    refine ⟨rfl, rfl, Int.ofNat_le.mpr lo, Int.ofNat_lt.mpr hi, le_refl 0, Int.natCast_pos.mpr
      (by decide), ?_, ?_⟩
    · simp only [EXPLO, EXP_INT_UNDERF]
      omega
    · simp only [EXPHI, EXP_INT_UNDERF]
      omega
  · rw [shape]
    simp only [Mval.value, isInt.int, if_true, Bool.false_eq_true, if_false]
    rw [← promoted_value narrow power, Int.cast_natCast, Int.cast_zero, add_zero]

/-- The float fields of a node. -/
def LvTreeNode.floatForm (b : LvTreeNode) : Mval :=
  ⟨⟨true, false, false, false, false⟩, b.key_sgn, b.key_e,
    if b.key_mvtype.int then 0 else b.key_m0, b.key_m1, []⟩

/-- The magnitudes of two floats are compared by exponent, high and low digits. -/
theorem compareFloats_magnitude {a : Mval} {b : LvTreeNode} (aFloat : a.IsFloat)
    (bFloat : b.floatForm.IsFloat) (signs : a.sgn = b.key_sgn) :
    ∃ difference : Int, compareFloats a b = difference * (if a.sgn then -1 else 1) ∧
      ((difference < 0 ∧ (aFloat.toDecimal.exp < bFloat.toDecimal.exp ∨
          (aFloat.toDecimal.exp = bFloat.toDecimal.exp ∧
            aFloat.toDecimal.mant < bFloat.toDecimal.mant))) ∨
        (difference = 0 ∧ aFloat.toDecimal = bFloat.toDecimal) ∨
        (0 < difference ∧ (bFloat.toDecimal.exp < aFloat.toDecimal.exp ∨
          (bFloat.toDecimal.exp = aFloat.toDecimal.exp ∧
            bFloat.toDecimal.mant < aFloat.toDecimal.mant)))) := by
  have aLow := aFloat.m1_lo
  have aDigits := And.intro aFloat.m0_lo aFloat.m0_hi
  have bLow := bFloat.m1_lo
  have bDigits := And.intro bFloat.m0_lo bFloat.m0_hi
  simp only [MANT_LO, MANT_HI, LvTreeNode.floatForm] at aLow aDigits bLow bDigits
  simp only [compareFloats, ← signs, ne_eq, not_true_eq_false, if_false]
  by_cases exps : (a.e : Int) - b.key_e = 0
  · rw [if_neg (not_not.mpr exps)]
    by_cases highs : a.m1 - b.key_m1 = 0
    · rw [if_neg (not_not.mpr highs), if_neg (by omega)]
      refine ⟨_, rfl, ?_⟩
      simp only [Mval.IsFloat.toDecimal, LvTreeNode.floatForm]
      rcases lt_trichotomy (a.m0 - if b.key_mvtype.int = true then 0 else b.key_m0) 0 with
        less | same | more
      · exact .inl ⟨less, .inr ⟨by omega, by omega⟩⟩
      · refine .inr (.inl ⟨same, Decimal.ext signs ?_ ?_⟩)
        · show (a.e : Int) - 62 = b.key_e - 62
          omega
        · show a.m1.toNat * 10 ^ 9 + a.m0.toNat = b.key_m1.toNat * 10 ^ 9 + _
          omega
      · exact .inr (.inr ⟨more, .inr ⟨by omega, by omega⟩⟩)
    · rw [if_pos highs]
      refine ⟨_, rfl, ?_⟩
      simp only [Mval.IsFloat.toDecimal, LvTreeNode.floatForm]
      rcases lt_trichotomy (a.m1 - b.key_m1) 0 with less | same | more
      · exact .inl ⟨less, .inr ⟨by omega, by omega⟩⟩
      · exact absurd same highs
      · exact .inr (.inr ⟨more, .inr ⟨by omega, by omega⟩⟩)
  · rw [if_pos exps]
    refine ⟨_, rfl, ?_⟩
    simp only [Mval.IsFloat.toDecimal, LvTreeNode.floatForm]
    rcases lt_trichotomy ((a.e : Int) - b.key_e) 0 with less | same | more
    · exact .inl ⟨less, .inl (by omega)⟩
    · exact absurd same exps
    · exact .inr (.inr ⟨more, .inl (by omega)⟩)

/-- Two floats compare as their values do. -/
theorem compareFloats_orders {a : Mval} {b : LvTreeNode} (aFloat : a.IsFloat)
    (bFloat : b.floatForm.IsFloat) : Orders (compareFloats a b) a.value b.floatForm.value := by
  rw [← aFloat.toDecimal_value, ← bFloat.toDecimal_value]
  have aPositive := aFloat.toDecimal.magnitude_pos
  have bPositive := bFloat.toDecimal.magnitude_pos
  have aSign : aFloat.toDecimal.neg = a.sgn := rfl
  have bSign : bFloat.toDecimal.neg = b.key_sgn := rfl
  by_cases signs : a.sgn = b.key_sgn
  · obtain ⟨difference, result, cases'⟩ := compareFloats_magnitude aFloat bFloat signs
    rw [result]
    rcases cases' with ⟨less, smaller⟩ | ⟨none, same⟩ | ⟨more, larger⟩
    · have magnitudes := Decimal.magnitude_lt smaller
      unfold Orders Decimal.value
      rw [aSign, bSign, ← signs]
      cases a.sgn <;> simp only [signFactor, if_true, Bool.false_eq_true, if_false]
      · exact .inl ⟨by omega, by linarith⟩
      · exact .inr (.inr ⟨by omega, by linarith⟩)
    · exact .inr (.inl ⟨by rw [none, zero_mul], by rw [same]⟩)
    · have magnitudes := Decimal.magnitude_lt larger
      unfold Orders Decimal.value
      rw [aSign, bSign, ← signs]
      cases a.sgn <;> simp only [signFactor, if_true, Bool.false_eq_true, if_false]
      · exact .inr (.inr ⟨by omega, by linarith⟩)
      · exact .inl ⟨by omega, by linarith⟩
  · unfold Orders Decimal.value compareFloats
    rw [aSign, bSign]
    cases aNeg : a.sgn <;> cases bNeg : b.key_sgn
    · exact absurd (aNeg.trans bNeg.symm) signs
    · refine .inr (.inr ⟨by simp, ?_⟩)
      simp only [signFactor]
      linarith
    · refine .inl ⟨by simp, ?_⟩
      simp only [signFactor]
      linarith
    · exact absurd (aNeg.trans bNeg.symm) signs

/-- A float against a converted zero: the sign of the zero is left over from
another key, but its exponent is below every float's. -/
theorem compareFloats_zero {a : Mval} {b : LvTreeNode} (aFloat : a.IsFloat) (low : b.key_e = 0) :
    Orders (compareFloats a b) a.value 0 := by
  have positive := aFloat.toDecimal.magnitude_pos
  have above := aFloat.e_lo
  simp only [EXPLO] at above
  rw [← aFloat.toDecimal_value]
  unfold Orders Decimal.value compareFloats
  rw [show aFloat.toDecimal.neg = a.sgn from rfl, low]
  have differ : ¬ (a.e : Int) - (0 : Nat) = 0 := by omega
  cases aNeg : a.sgn <;> cases b.key_sgn <;>
    simp only [signFactor, if_true, Bool.false_eq_true, if_false, ne_eq, not_true_eq_false, differ,
      not_false_eq_true]
  · exact .inr (.inr ⟨by omega, by linarith⟩)
  · exact .inr (.inr ⟨by simp, by linarith⟩)
  · exact .inl ⟨by simp, by linarith⟩
  · exact .inl ⟨by omega, by linarith⟩

/-- A promoted zero against a float. -/
theorem compareFloats_of_zero {b : LvTreeNode} (bFloat : b.floatForm.IsFloat) :
    Orders (compareFloats literal_zero b) 0 b.floatForm.value := by
  have positive := bFloat.toDecimal.magnitude_pos
  have above : EXPLO ≤ b.key_e := bFloat.e_lo
  simp only [EXPLO] at above
  rw [← bFloat.toDecimal_value]
  unfold Orders Decimal.value compareFloats literal_zero
  rw [show bFloat.toDecimal.neg = b.key_sgn from rfl]
  have differ : ¬ ((0 : Nat) : Int) - b.key_e = 0 := by omega
  cases b.key_sgn <;>
    simp only [signFactor, if_true, Bool.false_eq_true, if_false, ne_eq, not_true_eq_false, differ,
      not_false_eq_true]
  · exact .inl ⟨by omega, by linarith⟩
  · exact .inr (.inr ⟨by simp, by linarith⟩)

/-- A converted nonzero integer key has a float form of its value. -/
theorem LvTreeNode.Converted.floatForm {b : LvTreeNode} (converted : b.Converted)
    (isInt : b.key.IsInt) (nonzero : b.key_m0 ≠ 0) :
    b.floatForm.IsFloat ∧ b.floatForm.value = b.key.value := by
  have int : b.key_mvtype.int = true := isInt.int
  have small : b.key_m0.natAbs < MANT_HI := by
    have := isInt.small
    rwa [show b.key.m1 = b.key_m0 by simp [LvTreeNode.key, int]] at this
  rw [Converted, if_neg nonzero] at converted
  obtain ⟨sgn, m1, e⟩ := converted
  obtain ⟨n, narrow, some, count, lo, hi, power⟩ := promoted_digits nonzero small
  rw [count] at m1 e
  have shape : b.floatForm = ⟨⟨true, false, false, false, false⟩, decide (b.key_m0 < 0),
      n + EXP_INT_UNDERF, 0, (b.key_m0.natAbs * ten_pwr (NUM_DEC_DG_1L - n) : Nat), []⟩ := by
    rw [LvTreeNode.floatForm, sgn, m1, e, int, if_pos rfl, Nat.cast_mul]
  constructor
  · rw [shape]
    refine ⟨rfl, rfl, Int.ofNat_le.mpr lo, Int.ofNat_lt.mpr hi, le_refl 0, Int.natCast_pos.mpr
      (by decide), ?_, ?_⟩
    · simp only [EXPLO, EXP_INT_UNDERF]
      omega
    · simp only [EXPHI, EXP_INT_UNDERF]
      omega
  · rw [shape]
    simp only [Mval.value, LvTreeNode.key, int, if_true, Bool.false_eq_true, if_false]
    rw [← promoted_value narrow power, Int.cast_natCast, Int.cast_zero, add_zero, Nat.add_comm n]

/-- The float fields of a float key are the key. -/
theorem LvTreeNode.floatForm_of_isFloat {b : LvTreeNode} (isFloat : b.key.IsFloat) :
    b.floatForm.IsFloat ∧ b.floatForm.value = b.key.value := by
  have int : b.key_mvtype.int = false := isFloat.int
  have m1 : b.key.m1 = b.key_m1 := by simp [LvTreeNode.key, int]
  have m0 : b.floatForm.m0 = b.key_m0 := by simp [LvTreeNode.floatForm, int]
  constructor
  · refine ⟨rfl, rfl, ?_, ?_, ?_, ?_, isFloat.e_lo, isFloat.e_hi⟩
    · exact le_of_le_of_eq isFloat.m1_lo m1
    · exact lt_of_eq_of_lt m1.symm isFloat.m1_hi
    · exact m0 ▸ isFloat.m0_lo
    · exact m0 ▸ isFloat.m0_hi
  · simp [Mval.value, LvTreeNode.floatForm, LvTreeNode.key, int]

/-! ## Conversion of a key -/

/-- Conversion keeps what the node is about. -/
theorem lvAvlTreeNodeFltConv_subscript {b : LvTreeNode} (int : b.key_mvtype.int = true) :
    (lvAvlTreeNodeFltConv b).subscript = b.subscript := by
  unfold lvAvlTreeNodeFltConv
  split <;> simp [LvTreeNode.subscript, LvTreeNode.key, TreeKeySubscr.subscript, Mval.value, int]

theorem lvAvlTreeNodeFltConv_converted (b : LvTreeNode) : (lvAvlTreeNodeFltConv b).Converted := by
  unfold lvAvlTreeNodeFltConv
  split
  next zero => simp [LvTreeNode.Converted, zero]
  next nonzero => simp [LvTreeNode.Converted, nonzero]

/-- The conversion to a float keeps a key valid. -/
theorem lvAvlTreeNodeFltConv_validKey {b : LvTreeNode} (valid : b.ValidKey)
    (int : b.key_mvtype.int = true) : (lvAvlTreeNodeFltConv b).ValidKey := by
  have canonical : (lvAvlTreeNodeFltConv b).key_canonical = b.key_canonical := by
    unfold lvAvlTreeNodeFltConv
    split <;> rfl
  have kind : (lvAvlTreeNodeFltConv b).key_mvtype = b.key_mvtype := by
    unfold lvAvlTreeNodeFltConv
    split <;> rfl
  have number : (lvAvlTreeNodeFltConv b).key_m0 = b.key_m0 := by
    unfold lvAvlTreeNodeFltConv
    split <;> rfl
  refine ⟨?_, by rw [kind, canonical, valid.marked], ?_, fun _ _ => lvAvlTreeNodeFltConv_converted b⟩
  · intro marked
    rcases valid.valid (canonical.symm.trans marked) with isInt | isFloat
    · refine .inl ⟨?_, ?_, ?_⟩
      · exact (congrArg MvType.nm kind).trans isInt.nm
      · exact (congrArg MvType.int kind).trans isInt.int
      · have small := isInt.small
        simp only [LvTreeNode.key, int, if_true] at small
        simp only [LvTreeNode.key, kind, int, if_true, number]
        exact small
    · exact absurd (isFloat.int.symm.trans int) (by decide)
  · intro unmarked
    rw [kind]
    exact valid.notInt (canonical.symm.trans unmarked)

/-! ## Strings -/

theorem MEMVCMP_cons (x y : UInt8) (xs ys : List UInt8) :
    MEMVCMP (x :: xs) (y :: ys) = if x = y then MEMVCMP xs ys else (x.toNat : Int) - y.toNat := by
  have bytes : x ≠ y → (x.toNat : Int) - y.toNat ≠ 0 := by
    intro differ zero
    exact differ (UInt8.toNat_inj.mp (by omega))
  unfold MEMVCMP
  simp only [List.length_cons, Nat.add_min_add_right, List.take_succ_cons, memcmp]
  by_cases same : x = y
  · rw [if_pos same, if_pos same]
    simp only [Nat.add_lt_add_iff_right]
  · rw [if_neg same, if_neg same, if_neg (bytes same)]

/-- Strings are compared bytewise, a string before its extensions. -/
theorem MEMVCMP_orders (xs ys : List UInt8) :
    Orders (MEMVCMP xs ys) (xs.map UInt8.toNat) (ys.map UInt8.toNat) := by
  induction xs generalizing ys with
  | nil =>
    cases ys with
    | nil => exact .inr (.inl ⟨rfl, rfl⟩)
    | cons y ys => exact .inl ⟨by simp [MEMVCMP, memcmp], List.nil_lt_cons _ _⟩
  | cons x xs ih =>
    cases ys with
    | nil => exact .inr (.inr ⟨by simp [MEMVCMP, memcmp], List.nil_lt_cons _ _⟩)
    | cons y ys =>
      rw [MEMVCMP_cons, List.map_cons, List.map_cons]
      unfold Orders
      rw [List.cons_lt_cons_iff, List.cons_lt_cons_iff, List.cons.injEq]
      by_cases same : x = y
      · rw [if_pos same, same]
        rcases ih ys with ⟨less, below⟩ | ⟨none, equal⟩ | ⟨more, above⟩
        · exact .inl ⟨less, .inr ⟨rfl, below⟩⟩
        · exact .inr (.inl ⟨none, rfl, equal⟩)
        · exact .inr (.inr ⟨more, .inr ⟨rfl, above⟩⟩)
      · have differ : x.toNat ≠ y.toNat := fun equal => same (UInt8.toNat_inj.mp equal)
        rw [if_neg same]
        rcases Nat.lt_or_gt_of_ne differ with less | more
        · exact .inl ⟨by omega, .inl less⟩
        · exact .inr (.inr ⟨by omega, .inl more⟩)

/-! ## The three comparisons -/

/-- A comparison of a subscript with a node's key: it tells their order, and the
node is as before or has its integer key converted. -/
structure Compares (a : TreeKeySubscr) (b : LvTreeNode) (outcome : LvTreeNode × Int) : Prop where
  orders : Orders outcome.2 a.subscript b.subscript
  node : outcome.1 = b ∨ (b.key_mvtype.int = true ∧ outcome.1 = lvAvlTreeNodeFltConv b)

theorem Orders.number {result : Int} {x y : ℚ} (orders : Orders result x y) :
    Orders result (Sum.inlₗ x : LocalSubscript) (Sum.inlₗ y) := by
  unfold Orders
  rw [Sum.Lex.inl_lt_inl_iff, Sum.Lex.inl_lt_inl_iff]
  rcases orders with less | ⟨none, equal⟩ | more
  · exact .inl less
  · exact .inr (.inl ⟨none, by rw [equal]⟩)
  · exact .inr (.inr more)

theorem Orders.string {result : Int} {x y : List ℕ} (orders : Orders result x y) :
    Orders result (Sum.inrₗ (Sum.inlₗ x) : LocalSubscript) (Sum.inrₗ (Sum.inlₗ y)) := by
  unfold Orders
  rw [Sum.Lex.inr_lt_inr_iff, Sum.Lex.inr_lt_inr_iff, Sum.Lex.inl_lt_inl_iff,
    Sum.Lex.inl_lt_inl_iff]
  rcases orders with less | ⟨none, equal⟩ | more
  · exact .inl less
  · exact .inr (.inl ⟨none, by rw [equal]⟩)
  · exact .inr (.inr more)

theorem TreeKeySubscr.subscript_number {a : TreeKeySubscr} (canonical : a.canonical = true) :
    a.subscript = Sum.inlₗ a.value := by
  rw [TreeKeySubscr.subscript, if_pos canonical]

theorem TreeKeySubscr.subscript_string {a : TreeKeySubscr} (text : a.canonical = false) :
    ∃ rest, a.subscript = Sum.inrₗ rest := by
  rw [TreeKeySubscr.subscript, text, if_neg (by decide)]
  split
  · exact ⟨_, rfl⟩
  · exact ⟨_, rfl⟩

/-- An integer key is compared as the order says. -/
theorem LV_AVL_TREE_INTKEY_CMP_compares {a : TreeKeySubscr} {b : LvTreeNode} (aInt : a.IsInt)
    (canonical : a.canonical = true) (bValid : b.ValidKey) :
    Compares a b (LV_AVL_TREE_INTKEY_CMP a b) := by
  rw [LV_AVL_TREE_INTKEY_CMP]
  by_cases int : b.key_mvtype.int = true
  · rw [if_pos int]
    have marked : b.key.canonical = true := by
      by_contra unmarked
      have notInt := bValid.notInt (by simpa [LvTreeNode.key] using unmarked)
      rw [int] at notInt
      cases notInt
    refine ⟨?_, .inl rfl⟩
    rw [LvTreeNode.subscript, a.subscript_number canonical, b.key.subscript_number marked]
    apply Orders.number
    have aValue : a.value = (a.m1 : ℚ) / 1000 := by simp [Mval.value, aInt.int, MV_BIAS]
    have bValue : b.key.value = (b.key_m0 : ℚ) / 1000 := by
      simp [Mval.value, LvTreeNode.key, int, MV_BIAS]
    rw [aValue, bValue]
    rcases lt_trichotomy a.m1 b.key_m0 with less | same | more
    · have cast : (a.m1 : ℚ) < b.key_m0 := by exact_mod_cast less
      exact .inl ⟨by omega, by linarith⟩
    · exact .inr (.inl ⟨by omega, by rw [same]⟩)
    · have cast : (b.key_m0 : ℚ) < a.m1 := by exact_mod_cast more
      exact .inr (.inr ⟨by omega, by linarith⟩)
  · rw [if_neg int]
    by_cases marked : b.key_canonical = true
    · rw [if_pos marked]
      refine ⟨?_, .inl rfl⟩
      rw [LvTreeNode.subscript, a.subscript_number canonical, b.key.subscript_number marked]
      apply Orders.number
      rcases bValid.valid marked with bInt | bFloat
      · exact absurd bInt.int int
      · obtain ⟨form, value⟩ := LvTreeNode.floatForm_of_isFloat bFloat
        rw [← value]
        by_cases zero : a.m1 = 0
        · rw [promote, if_pos zero, aInt.value_eq_zero.mpr zero]
          exact compareFloats_of_zero form
        · obtain ⟨promoted, same⟩ := promote_isFloat aInt zero
          rw [← same]
          exact compareFloats_orders promoted form
    · rw [if_neg marked]
      obtain ⟨rest, text⟩ := b.key.subscript_string (Bool.eq_false_of_not_eq_true marked)
      refine ⟨.inl ⟨neg_one_lt_zero, ?_⟩, .inl rfl⟩
      rw [LvTreeNode.subscript, a.subscript_number canonical, text]
      exact Sum.Lex.inl_lt_inr _ _

/-- The node whose float fields are compared with a float, converted now or before. -/
theorem LvTreeNode.ValidKey.compared {b : LvTreeNode} (bValid : b.ValidKey)
    (marked : b.key_canonical = true) :
    ∃ c, (if (b.key_mvtype.int && !b.key_iconv) = true then lvAvlTreeNodeFltConv b else b) = c ∧
      (c = b ∨ (b.key_mvtype.int = true ∧ c = lvAvlTreeNodeFltConv b)) ∧ c.ValidKey ∧
      c.subscript = b.subscript ∧ c.key.canonical = true ∧
      (c.key_mvtype.int = true → c.Converted) := by
  by_cases fresh : (b.key_mvtype.int && !b.key_iconv) = true
  · have int : b.key_mvtype.int = true := by simp_all
    refine ⟨_, if_pos fresh, .inr ⟨int, rfl⟩, lvAvlTreeNodeFltConv_validKey bValid int,
      lvAvlTreeNodeFltConv_subscript int, ?_, fun _ => lvAvlTreeNodeFltConv_converted b⟩
    unfold lvAvlTreeNodeFltConv
    split <;> exact marked
  · refine ⟨_, if_neg fresh, .inl rfl, bValid, rfl, marked, ?_⟩
    intro int
    apply bValid.converted int
    simpa [int] using fresh

/-- A float key is compared as the order says. -/
theorem LV_AVL_TREE_NUMKEY_CMP_compares {a : TreeKeySubscr} {b : LvTreeNode} (aFloat : a.IsFloat)
    (canonical : a.canonical = true) (bValid : b.ValidKey) :
    Compares a b (LV_AVL_TREE_NUMKEY_CMP a b) := by
  rw [LV_AVL_TREE_NUMKEY_CMP]
  by_cases marked : b.key_canonical = true
  · rw [if_pos marked]
    obtain ⟨c, isC, kept, valid, same, marked', converted⟩ := bValid.compared marked
    rw [isC]
    refine ⟨?_, kept⟩
    rw [← same, LvTreeNode.subscript, a.subscript_number canonical,
      c.key.subscript_number marked']
    apply Orders.number
    rcases valid.valid marked' with cInt | cFloat
    · have number : c.key.m1 = c.key_m0 := by
        have int : c.key_mvtype.int = true := cInt.int
        simp [LvTreeNode.key, int]
      by_cases zero : c.key_m0 = 0
      · rw [cInt.value_eq_zero.mpr (number.trans zero)]
        have low := converted cInt.int
        rw [LvTreeNode.Converted, if_pos zero] at low
        exact compareFloats_zero aFloat low
      · obtain ⟨form, value⟩ := (converted cInt.int).floatForm cInt zero
        rw [← value]
        exact compareFloats_orders aFloat form
    · obtain ⟨form, value⟩ := LvTreeNode.floatForm_of_isFloat cFloat
      rw [← value]
      exact compareFloats_orders aFloat form
  · rw [if_neg marked]
    obtain ⟨rest, text⟩ := b.key.subscript_string (Bool.eq_false_of_not_eq_true marked)
    refine ⟨.inl ⟨neg_one_lt_zero, ?_⟩, .inl rfl⟩
    rw [LvTreeNode.subscript, a.subscript_number canonical, text]
    exact Sum.Lex.inl_lt_inr _ _

/-- A string key is compared as the order says. -/
theorem LV_AVL_TREE_STRKEY_CMP_compares {a : TreeKeySubscr} {b : LvTreeNode}
    (text : a.canonical = false) : Compares a b (LV_AVL_TREE_STRKEY_CMP a b) := by
  rw [LV_AVL_TREE_STRKEY_CMP]
  by_cases marked : b.key_canonical = true
  · rw [if_pos marked]
    obtain ⟨rest, isText⟩ := a.subscript_string text
    refine ⟨.inr (.inr ⟨zero_lt_one, ?_⟩), .inl rfl⟩
    rw [LvTreeNode.subscript, b.key.subscript_number marked, isText]
    exact Sum.Lex.inl_lt_inr _ _
  · rw [if_neg marked]
    have bText : b.key.canonical = false := Bool.eq_false_of_not_eq_true marked
    have bNull : b.key.mvtype.sqlnull = b.key_mvtype.sqlnull := rfl
    cases aKind : a.mvtype.sqlnull <;> cases bKind : b.key_mvtype.sqlnull <;>
      simp only [Bool.not_true, Bool.not_false, if_true, Bool.false_eq_true, if_false]
    · refine ⟨?_, .inl rfl⟩
      rw [LvTreeNode.subscript, TreeKeySubscr.subscript, TreeKeySubscr.subscript, text, bText, bNull,
        aKind, bKind]
      exact (MEMVCMP_orders a.str b.key_str).string
    · refine ⟨.inl ⟨neg_one_lt_zero, ?_⟩, .inl rfl⟩
      rw [LvTreeNode.subscript, TreeKeySubscr.subscript, TreeKeySubscr.subscript, text, bText, bNull,
        aKind, bKind]
      exact Sum.Lex.inr_lt_inr_iff.mpr (Sum.Lex.inl_lt_inr _ _)
    · refine ⟨.inr (.inr ⟨zero_lt_one, ?_⟩), .inl rfl⟩
      rw [LvTreeNode.subscript, TreeKeySubscr.subscript, TreeKeySubscr.subscript, text, bText, bNull,
        aKind, bKind]
      exact Sum.Lex.inr_lt_inr_iff.mpr (Sum.Lex.inl_lt_inr _ _)
    · refine ⟨.inr (.inl ⟨rfl, ?_⟩), .inl rfl⟩
      rw [LvTreeNode.subscript, TreeKeySubscr.subscript, TreeKeySubscr.subscript, text, bText, bNull,
        aKind, bKind]
      rfl

end Ydb
