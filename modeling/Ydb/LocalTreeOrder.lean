import Ydb.NumberComparison

/-!
# The comparison of local keys as an order

The three comparisons together order all local subscripts: numbers by value,
then strings by bytes, then `$ZYSQLNULL`. On two numbers the answer has the sign
of the exact difference and is that of `numcmp`, whatever the fields hold that
the form of a number leaves unused. Every difference and product on the way fits
in an `heldInt4`; to say so, each macro has a second version here in which an
intermediate result outside that range ends the comparison.
-/

namespace Ydb

open Lib

/-- Compare a subscript with the key of a node. -/
def lvAvlTreeKeySubscrCmp (aSubscr : TreeKeySubscr) (bNode : LvTreeNode) : LvTreeNode × Int :=
  if aSubscr.canonical then
    if aSubscr.mvtype.int then LV_AVL_TREE_INTKEY_CMP aSubscr bNode
    else LV_AVL_TREE_NUMKEY_CMP aSubscr bNode
  else LV_AVL_TREE_STRKEY_CMP aSubscr bNode

theorem lvAvlTreeKeySubscrCmp_compares {a : TreeKeySubscr} {b : LvTreeNode} (aValid : a.Valid)
    (bValid : b.ValidKey) : Compares a b (lvAvlTreeKeySubscrCmp a b) := by
  rw [lvAvlTreeKeySubscrCmp]
  by_cases canonical : a.canonical = true
  · rw [if_pos canonical]
    rcases aValid canonical with isInt | isFloat
    · rw [if_pos isInt.int]
      exact LV_AVL_TREE_INTKEY_CMP_compares isInt canonical bValid
    · rw [if_neg (by simp [isFloat.int])]
      exact LV_AVL_TREE_NUMKEY_CMP_compares isFloat canonical bValid
  · rw [if_neg canonical]
    exact LV_AVL_TREE_STRKEY_CMP_compares (Bool.eq_false_of_not_eq_true canonical)

/-! ## Intermediate results -/

/-- A result that is kept in an `int4`, if it fits. -/
def heldInt4 (x : Int) : Option Int := if -2 ^ 31 ≤ x ∧ x < 2 ^ 31 then some x else none

theorem heldInt4_eq {x : Int} (low : -2 ^ 31 ≤ x) (high : x < 2 ^ 31) : heldInt4 x = some x :=
  if_pos ⟨low, high⟩

/-- The magnitude of an integer that is not zero. -/
def int4Magnitude (m1 : Int) : Option Int := if 0 < m1 then some m1 else heldInt4 (-m1)

/-- `promote` with checked results. -/
def promoteChecked (v : Mval) : Option Mval :=
  if v.m1 = 0 then some literal_zero
  else do
    let m1 ← int4Magnitude v.m1
    let exp := countPowers m1.toNat NUM_DEC_DG_1L 0
    let scaled ← heldInt4 (m1 * ten_pwr (NUM_DEC_DG_1L - exp))
    let e ← heldInt4 (EXP_INT_UNDERF + exp)
    return { v with
      mvtype := ⟨true, false, false, false, false⟩
      sgn := decide (v.m1 < 0)
      e := e.toNat
      m0 := 0
      m1 := scaled }

/-- `lvAvlTreeNodeFltConv` with checked results. -/
def lvAvlTreeNodeFltConvChecked (fltNode : LvTreeNode) : Option LvTreeNode :=
  if fltNode.key_m0 = 0 then some { fltNode with key_e := 0, key_iconv := true }
  else do
    let int_m1 ← int4Magnitude fltNode.key_m0
    let int_exp := countPowers int_m1.toNat NUM_DEC_DG_1L 0
    let key_m1 ← heldInt4 (int_m1 * ten_pwr (NUM_DEC_DG_1L - int_exp))
    let int_exp ← heldInt4 (int_exp + EXP_INT_UNDERF)
    return { fltNode with
      key_sgn := decide (fltNode.key_m0 < 0)
      key_m1 := key_m1
      key_e := int_exp.toNat
      key_iconv := true }

/-- The comparison of two floats with checked results. -/
def compareFloatsChecked (a : Mval) (b : LvTreeNode) : Option Int :=
  let a_sgn : Int := if a.sgn then -1 else 1
  let b_sgn : Int := if b.key_sgn then -1 else 1
  if a_sgn ≠ b_sgn then some a_sgn
  else do
    let exp_diff ← heldInt4 (a.e - b.key_e)
    if exp_diff ≠ 0 then heldInt4 (exp_diff * a_sgn)
    else do
      let m1_diff ← heldInt4 (a.m1 - b.key_m1)
      if m1_diff ≠ 0 then heldInt4 (m1_diff * a_sgn)
      else if a.m1 = 0 then some 0
      else do
        let b_m0 := if b.key_mvtype.int then 0 else b.key_m0
        let m0_diff ← heldInt4 (a.m0 - b_m0)
        heldInt4 (m0_diff * a_sgn)

/-- `LV_AVL_TREE_INTKEY_CMP` with checked results. -/
def intkeyCmpChecked (a : TreeKeySubscr) (b : LvTreeNode) : Option (LvTreeNode × Int) :=
  if b.key_mvtype.int then (heldInt4 (a.m1 - b.key_m0)).map (b, ·)
  else if b.key_canonical then do
    let tmpASubscr ← promoteChecked a.toMval
    let retVal ← compareFloatsChecked tmpASubscr b
    return (b, retVal)
  else some (b, -1)

/-- The node that a float is compared with. -/
def comparedChecked (b : LvTreeNode) : Option LvTreeNode :=
  if b.key_mvtype.int && !b.key_iconv then lvAvlTreeNodeFltConvChecked b else some b

/-- `LV_AVL_TREE_NUMKEY_CMP` with checked results. -/
def numkeyCmpChecked (a : TreeKeySubscr) (b : LvTreeNode) : Option (LvTreeNode × Int) :=
  if b.key_canonical then do
    let b ← comparedChecked b
    let retVal ← compareFloatsChecked a.toMval b
    return (b, retVal)
  else some (b, -1)

/-- `lvAvlTreeKeySubscrCmp` with checked results. The comparison of strings has none. -/
def lvAvlTreeKeySubscrCmpChecked (aSubscr : TreeKeySubscr) (bNode : LvTreeNode) :
    Option (LvTreeNode × Int) :=
  if aSubscr.canonical then
    if aSubscr.mvtype.int then intkeyCmpChecked aSubscr bNode else numkeyCmpChecked aSubscr bNode
  else some (LV_AVL_TREE_STRKEY_CMP aSubscr bNode)

theorem int4Magnitude_eq {m : Int} (small : m.natAbs < MANT_HI) :
    int4Magnitude m = some (m.natAbs : Int) := by
  have unit : MANT_HI = 10 ^ 9 := rfl
  rw [unit] at small
  rw [int4Magnitude]
  by_cases positive : 0 < m
  · rw [if_pos positive, Int.natAbs_of_nonneg positive.le]
  · rw [if_neg positive, heldInt4_eq (by omega) (by omega), Int.ofNat_natAbs_of_nonpos (by omega)]

/-- The digits and the exponent of a nonzero integer stay in range while it is converted. -/
theorem promoted_range {m : Int} (nonzero : m ≠ 0) (small : m.natAbs < MANT_HI) :
    heldInt4 ((m.natAbs : Int) * ten_pwr (NUM_DEC_DG_1L - countPowers m.natAbs NUM_DEC_DG_1L 0)) =
        some ((m.natAbs : Int) * ten_pwr (NUM_DEC_DG_1L - countPowers m.natAbs NUM_DEC_DG_1L 0)) ∧
      heldInt4 ((EXP_INT_UNDERF : Int) + countPowers m.natAbs NUM_DEC_DG_1L 0) =
        some ((EXP_INT_UNDERF + countPowers m.natAbs NUM_DEC_DG_1L 0 : Nat) : Int) := by
  obtain ⟨n, narrow, _, count, _, hi, _⟩ := promoted_digits nonzero small
  rw [count]
  constructor
  · have product : ((m.natAbs * ten_pwr (NUM_DEC_DG_1L - n) : Nat) : Int) < MANT_HI := by
      exact_mod_cast hi
    have unit : (MANT_HI : Int) < 2 ^ 31 := by decide
    rw [Nat.cast_mul] at product
    apply heldInt4_eq
    · exact (by decide : (-2 ^ 31 : Int) ≤ 0).trans (by positivity)
    · exact product.trans unit
  · have bias : EXP_INT_UNDERF = 59 := rfl
    rw [heldInt4_eq (by omega) (by omega), Nat.cast_add]

theorem promoteChecked_eq {v : Mval} (isInt : v.IsInt) : promoteChecked v = some (promote v) := by
  unfold promoteChecked promote
  by_cases zero : v.m1 = 0
  · rw [if_pos zero, if_pos zero]
  · obtain ⟨scaled, exponent⟩ := promoted_range zero isInt.small
    rw [if_neg zero, if_neg zero, int4Magnitude_eq isInt.small, Option.bind_eq_bind, Option.bind_some]
    dsimp only
    rw [Int.toNat_natCast, scaled, Option.bind_some, exponent, Option.bind_some, Int.toNat_natCast]
    rfl

theorem lvAvlTreeNodeFltConvChecked_eq {b : LvTreeNode} (small : b.key_m0.natAbs < MANT_HI) :
    lvAvlTreeNodeFltConvChecked b = some (lvAvlTreeNodeFltConv b) := by
  unfold lvAvlTreeNodeFltConvChecked lvAvlTreeNodeFltConv
  by_cases zero : b.key_m0 = 0
  · rw [if_pos zero, if_pos zero]
  · obtain ⟨scaled, exponent⟩ := promoted_range zero small
    rw [Int.add_comm, Nat.add_comm] at exponent
    rw [if_neg zero, if_neg zero, int4Magnitude_eq small, Option.bind_eq_bind, Option.bind_some]
    dsimp only
    rw [Int.toNat_natCast, scaled, Option.bind_some, exponent, Option.bind_some, Int.toNat_natCast]
    rfl

/-- What keeps the comparison of two floats in range: exponents of seven bits, and digits of
nine places where the exponents agree. -/
structure FloatsInRange (a : Mval) (b : LvTreeNode) : Prop where
  aExp : a.e < 128
  bExp : b.key_e < 128
  high : a.e = b.key_e → |a.m1 - b.key_m1| < 10 ^ 9
  low : a.e = b.key_e → |a.m0 - if b.key_mvtype.int then 0 else b.key_m0| < 10 ^ 9

theorem heldInt4_scaled {x : Int} (small : |x| < 10 ^ 9) (neg : Bool) :
    heldInt4 (x * if neg then -1 else 1) = some (x * if neg then -1 else 1) := by
  obtain ⟨low, high⟩ := abs_lt.mp small
  cases neg
  · exact heldInt4_eq (by simp only [Bool.false_eq_true, if_false]; omega)
      (by simp only [Bool.false_eq_true, if_false]; omega)
  · exact heldInt4_eq (by simp only [if_true]; omega) (by simp only [if_true]; omega)

theorem heldInt4_small {x : Int} (small : |x| < 10 ^ 9) : heldInt4 x = some x := by
  have plain := heldInt4_scaled small false
  simpa using plain

/-- No difference of two floats overflows. -/
theorem compareFloatsChecked_eq {a : Mval} {b : LvTreeNode} (range : FloatsInRange a b) :
    compareFloatsChecked a b = some (compareFloats a b) := by
  have exps : |(a.e : Int) - b.key_e| < 10 ^ 9 := by
    have aExp := range.aExp
    have bExp := range.bExp
    rw [abs_lt]
    omega
  unfold compareFloatsChecked compareFloats
  dsimp only
  by_cases signs : (if a.sgn then (-1 : Int) else 1) = if b.key_sgn then -1 else 1
  · rw [if_neg (not_not.mpr signs), if_neg (not_not.mpr signs), heldInt4_small exps, Option.bind_eq_bind,
      Option.bind_some]
    by_cases same : (a.e : Int) - b.key_e = 0
    · have equal : a.e = b.key_e := by omega
      rw [if_neg (not_not.mpr same), if_neg (not_not.mpr same), heldInt4_small (range.high equal),
        Option.bind_some]
      by_cases highs : a.m1 - b.key_m1 = 0
      · rw [if_neg (not_not.mpr highs), if_neg (not_not.mpr highs)]
        by_cases none : a.m1 = 0
        · rw [if_pos none, if_pos none]
        · rw [if_neg none, if_neg none, heldInt4_small (range.low equal), Option.bind_some]
          exact heldInt4_scaled (range.low equal) a.sgn
      · rw [if_pos highs, if_pos highs]
        exact heldInt4_scaled (range.high equal) a.sgn
    · rw [if_pos same, if_pos same]
      exact heldInt4_scaled exps a.sgn
  · rw [if_pos signs, if_pos signs]

theorem FloatsInRange.of_floats {a : Mval} {b : LvTreeNode} (aFloat : a.IsFloat)
    (bFloat : b.floatForm.IsFloat) : FloatsInRange a b := by
  have unit : MANT_HI = 10 ^ 9 := rfl
  have lowest : MANT_LO = 10 ^ 8 := rfl
  have top : EXPHI = 110 := rfl
  have aHigh := aFloat.m1_hi
  have bHigh := bFloat.m1_hi
  have aLow := aFloat.m1_lo
  have bLow := bFloat.m1_lo
  have aRest := aFloat.m0_hi
  have bRest := bFloat.m0_hi
  have bRestLow := bFloat.m0_lo
  have aRestLow := aFloat.m0_lo
  have aExp := aFloat.e_hi
  have bExp := bFloat.e_hi
  simp only [LvTreeNode.floatForm] at bHigh bLow bRest bRestLow bExp
  rw [unit] at aHigh bHigh aRest bRest
  rw [lowest] at aLow bLow
  rw [top] at aExp bExp
  constructor
  · omega
  · omega
  · intro _
    rw [abs_lt]
    omega
  · intro _
    rw [abs_lt]
    omega

/-- A node with exponent zero decides by the exponent, whatever its digits. -/
theorem FloatsInRange.of_exponent_zero {a : Mval} {b : LvTreeNode} (aFloat : a.IsFloat)
    (low : b.key_e = 0) : FloatsInRange a b := by
  have top : EXPHI = 110 := rfl
  have bottom : EXPLO = 20 := rfl
  have aExp := aFloat.e_hi
  have aPositive := aFloat.e_lo
  rw [top] at aExp
  rw [bottom] at aPositive
  constructor
  · omega
  · omega
  · intro same
    omega
  · intro same
    omega

theorem FloatsInRange.of_literal_zero {b : LvTreeNode} (bFloat : b.floatForm.IsFloat) :
    FloatsInRange literal_zero b := by
  have top : EXPHI = 110 := rfl
  have bottom : EXPLO = 20 := rfl
  have none : literal_zero.e = 0 := rfl
  have bExp : b.key_e < EXPHI := bFloat.e_hi
  have bPositive : EXPLO ≤ b.key_e := bFloat.e_lo
  rw [top] at bExp
  rw [bottom] at bPositive
  constructor
  · omega
  · omega
  · intro same
    omega
  · intro same
    omega

theorem LvTreeNode.ValidKey.marked_of_int {b : LvTreeNode} (bValid : b.ValidKey)
    (int : b.key_mvtype.int = true) : b.key_canonical = true := by
  by_contra unmarked
  have notInt := bValid.notInt (Bool.eq_false_of_not_eq_true unmarked)
  rw [int] at notInt
  cases notInt

/-- The value of an integer key is in range. -/
theorem LvTreeNode.ValidKey.int_small {b : LvTreeNode} (bValid : b.ValidKey)
    (int : b.key_mvtype.int = true) : b.key_m0.natAbs < MANT_HI := by
  rcases bValid.valid (bValid.marked_of_int int) with isInt | isFloat
  · have small := isInt.small
    rwa [show b.key.m1 = b.key_m0 by simp [LvTreeNode.key, int]] at small
  · have notInt : b.key_mvtype.int = false := isFloat.int
    rw [int] at notInt
    cases notInt

/-- No difference with an integer key overflows. -/
theorem intkeyCmpChecked_eq {a : TreeKeySubscr} {b : LvTreeNode} (aInt : a.IsInt)
    (bValid : b.ValidKey) : intkeyCmpChecked a b = some (LV_AVL_TREE_INTKEY_CMP a b) := by
  rw [intkeyCmpChecked, LV_AVL_TREE_INTKEY_CMP]
  by_cases int : b.key_mvtype.int = true
  · have aSmall := aInt.small
    have bSmall := bValid.int_small int
    have unit : MANT_HI = 10 ^ 9 := rfl
    rw [unit] at aSmall bSmall
    rw [if_pos int, if_pos int, heldInt4_eq (by omega) (by omega)]
    rfl
  · rw [if_neg int, if_neg int]
    by_cases marked : b.key_canonical = true
    · rw [if_pos marked, if_pos marked, promoteChecked_eq aInt, Option.bind_eq_bind, Option.bind_some]
      have range : FloatsInRange (promote a.toMval) b := by
        rcases bValid.valid marked with bInt | bFloat
        · exact absurd bInt.int int
        · obtain ⟨form, _⟩ := LvTreeNode.floatForm_of_isFloat bFloat
          by_cases zero : a.m1 = 0
          · rw [promote, if_pos zero]
            exact FloatsInRange.of_literal_zero form
          · exact FloatsInRange.of_floats (promote_isFloat aInt zero).1 form
      rw [compareFloatsChecked_eq range]
      rfl
    · rw [if_neg marked, if_neg marked]

theorem numkeyCmpChecked_eq {a : TreeKeySubscr} {b : LvTreeNode} (aFloat : a.IsFloat)
    (bValid : b.ValidKey) : numkeyCmpChecked a b = some (LV_AVL_TREE_NUMKEY_CMP a b) := by
  rw [numkeyCmpChecked, LV_AVL_TREE_NUMKEY_CMP]
  by_cases marked : b.key_canonical = true
  · rw [if_pos marked, if_pos marked]
    obtain ⟨c, isC, kept, valid, same, marked', converted⟩ := bValid.compared marked
    have checked : comparedChecked b = some c := by
      rw [comparedChecked]
      by_cases fresh : (b.key_mvtype.int && !b.key_iconv) = true
      · have int : b.key_mvtype.int = true := (Bool.and_eq_true_iff.mp fresh).1
        rw [if_pos fresh] at isC ⊢
        rw [lvAvlTreeNodeFltConvChecked_eq (bValid.int_small int), isC]
      · rw [if_neg fresh] at isC ⊢
        rw [isC]
    have range : FloatsInRange a.toMval c := by
      rcases valid.valid marked' with cInt | cFloat
      · have low := converted cInt.int
        by_cases zero : c.key_m0 = 0
        · rw [LvTreeNode.Converted, if_pos zero] at low
          exact FloatsInRange.of_exponent_zero aFloat low
        · exact FloatsInRange.of_floats aFloat (low.floatForm cInt zero).1
      · exact FloatsInRange.of_floats aFloat (LvTreeNode.floatForm_of_isFloat cFloat).1
    rw [checked, isC, Option.bind_eq_bind, Option.bind_some, compareFloatsChecked_eq range]
    rfl
  · rw [if_neg marked, if_neg marked]

/-- No intermediate result of a comparison is out of range. -/
theorem lvAvlTreeKeySubscrCmpChecked_eq {a : TreeKeySubscr} {b : LvTreeNode} (aValid : a.Valid)
    (bValid : b.ValidKey) :
    lvAvlTreeKeySubscrCmpChecked a b = some (lvAvlTreeKeySubscrCmp a b) := by
  rw [lvAvlTreeKeySubscrCmpChecked, lvAvlTreeKeySubscrCmp]
  by_cases canonical : a.canonical = true
  · rw [if_pos canonical, if_pos canonical]
    rcases aValid canonical with isInt | isFloat
    · rw [if_pos isInt.int, if_pos isInt.int]
      exact intkeyCmpChecked_eq isInt bValid
    · have notInt : ¬ a.mvtype.int = true := by simp [isFloat.int]
      rw [if_neg notInt, if_neg notInt]
      exact numkeyCmpChecked_eq isFloat bValid
  · rw [if_neg canonical, if_neg canonical]

/-! ## The order -/

/-- What the comparison of two keys tells, whichever form numbers are in. -/
structure ComparesExactly (tg : ThreadGbl) (a : TreeKeySubscr) (b : LvTreeNode) : Prop where
  orders : Orders (lvAvlTreeKeySubscrCmp a b).2 a.subscript b.subscript
  /-- Of two numbers it is the sign of their exact difference. -/
  exact : a.canonical = true → b.key_canonical = true →
    (lvAvlTreeKeySubscrCmp a b).2.sign = SignType.sign (a.value - b.key.value)
  numcmp : a.canonical = true → b.key_canonical = true → a.mvtype.sqlnull = false →
    b.key_mvtype.sqlnull = false →
    Ydb.numcmp tg a.toMval b.key.toMval = .ok (lvAvlTreeKeySubscrCmp a b).2.sign
  numbersFirst : a.canonical = true → b.key_canonical = false → (lvAvlTreeKeySubscrCmp a b).2 < 0
  stringsLast : a.canonical = false → b.key_canonical = true → 0 < (lvAvlTreeKeySubscrCmp a b).2
  inRange : lvAvlTreeKeySubscrCmpChecked a b = some (lvAvlTreeKeySubscrCmp a b)
  /-- The node is left in order, with the subscript it had. -/
  node : (lvAvlTreeKeySubscrCmp a b).1.ValidKey ∧
    (lvAvlTreeKeySubscrCmp a b).1.subscript = b.subscript

theorem orders_of_numbers {result : Int} {x y : ℚ}
    (orders : Orders result (Sum.inlₗ x : LocalSubscript) (Sum.inlₗ y)) : Orders result x y := by
  unfold Orders at orders ⊢
  rw [Sum.Lex.inl_lt_inl_iff, Sum.Lex.inl_lt_inl_iff] at orders
  rcases orders with less | ⟨none, equal⟩ | more
  · exact .inl less
  · exact .inr (.inl ⟨none, Sum.inl_injective (toLex.injective equal)⟩)
  · exact .inr (.inr more)

theorem Orders.lt_iff {result : Int} {x y : LocalSubscript} (orders : Orders result x y) :
    result < 0 ↔ x < y := by
  rcases orders with ⟨negative, less⟩ | ⟨none, equal⟩ | ⟨positive, more⟩
  · exact iff_of_true negative less
  · exact iff_of_false (by omega) equal.not_lt
  · exact iff_of_false (by omega) more.not_gt

theorem comparesExactly (tg : ThreadGbl) {a : TreeKeySubscr} {b : LvTreeNode} (aValid : a.Valid)
    (bValid : b.ValidKey) : ComparesExactly tg a b := by
  have compares := lvAvlTreeKeySubscrCmp_compares aValid bValid
  have exact : a.canonical = true → b.key_canonical = true →
      (lvAvlTreeKeySubscrCmp a b).2.sign = SignType.sign (a.value - b.key.value) := by
    intro canonical marked
    have orders := compares.orders
    rw [LvTreeNode.subscript, a.subscript_number canonical, b.key.subscript_number marked] at orders
    exact (orders_of_numbers orders).sign_eq
  constructor
  · exact compares.orders
  · exact exact
  · intro canonical marked aPlain bPlain
    have aForm := aValid canonical
    have bForm := bValid.valid marked
    have bNull : b.key.mvtype.sqlnull = false := bPlain
    have aForced := mvForceNum_eq tg (aForm.elim (·.nm) (·.nm)) aPlain
    have bForced := mvForceNum_eq tg (bForm.elim (·.nm) (·.nm)) bNull
    rw [exact canonical marked, ← numcmpNumbers_eq aForm bForm]
    simp only [numcmp, aPlain, bNull, Bool.or_self, Bool.false_eq_true, if_false, aForced, bForced]
    rfl
  · intro canonical text
    obtain ⟨rest, isText⟩ := b.key.subscript_string text
    rw [compares.orders.lt_iff, LvTreeNode.subscript, a.subscript_number canonical, isText]
    exact Sum.Lex.inl_lt_inr _ _
  · intro text marked
    obtain ⟨rest, isText⟩ := a.subscript_string text
    have after : b.subscript < a.subscript := by
      rw [LvTreeNode.subscript, b.key.subscript_number marked, isText]
      exact Sum.Lex.inl_lt_inr _ _
    rcases compares.orders with ⟨_, less⟩ | ⟨_, equal⟩ | ⟨positive, _⟩
    · exact absurd after less.not_gt
    · exact absurd equal after.ne'
    · exact positive
  · exact lvAvlTreeKeySubscrCmpChecked_eq aValid bValid
  · rcases compares.node with same | ⟨int, converted⟩
    · rw [same]
      exact ⟨bValid, rfl⟩
    · rw [converted]
      exact ⟨lvAvlTreeNodeFltConv_validKey bValid int, lvAvlTreeNodeFltConv_subscript int⟩

/-- The key of one node comes before that of another. -/
def LvTreeNode.Before (m n : LvTreeNode) : Prop := (lvAvlTreeKeySubscrCmp m.key n).2 < 0

theorem LvTreeNode.ValidKey.before_iff {m n : LvTreeNode} (mValid : m.ValidKey)
    (nValid : n.ValidKey) : m.Before n ↔ m.subscript < n.subscript :=
  (lvAvlTreeKeySubscrCmp_compares mValid.valid nValid).orders.lt_iff

/-- The comparison of local keys is exact for every subscript and every key, and on the keys of
nodes it is a strict total order. -/
theorem local_keys_strictly_ordered (tg : ThreadGbl) :
    (∀ (a : TreeKeySubscr) (b : LvTreeNode), a.Valid → b.ValidKey → ComparesExactly tg a b) ∧
      (∀ n : LvTreeNode, n.ValidKey → ¬ n.Before n) ∧
      (∀ l m n : LvTreeNode, l.ValidKey → m.ValidKey → n.ValidKey → l.Before m → m.Before n →
        l.Before n) ∧
      (∀ m n : LvTreeNode, m.ValidKey → n.ValidKey →
        m.Before n ∨ m.subscript = n.subscript ∨ n.Before m) := by
  refine ⟨?_, ?_, ?_, ?_⟩
  · intro a b aValid bValid
    exact comparesExactly tg aValid bValid
  · intro n valid
    rw [valid.before_iff valid]
    exact lt_irrefl _
  · intro l m n lValid mValid nValid first second
    rw [lValid.before_iff mValid] at first
    rw [mValid.before_iff nValid] at second
    rw [lValid.before_iff nValid]
    exact first.trans second
  · intro m n mValid nValid
    rw [mValid.before_iff nValid, nValid.before_iff mValid]
    exact lt_trichotomy _ _

/-- Nodes with the keys 2, whose float fields hold something else, 1234567.25 and "a". -/
def twoNode : LvTreeNode :=
  ⟨literal_zero, none, ⟨true, true, false, false, false⟩, true, .even, .left, true, 7, false, 2000, 5,
    [], none, none, none⟩

/-- A node with a number that is no integer. -/
def floatNode : LvTreeNode :=
  ⟨literal_zero, none, ⟨true, false, false, false, false⟩, true, .even, .left, false, 69, false, 0,
    123456725, [], none, none, none⟩

/-- A node with a string. -/
def textNode : LvTreeNode :=
  ⟨literal_zero, none, ⟨false, false, true, false, false⟩, false, .even, .left, false, 0, false, 0,
    0, [0x61], none, none, none⟩

/-- The float meets the integer first, whose float fields are filled in, and the three keys
are in this order. -/
theorem local_keys_strictly_ordered_three :
    ComparesExactly ⟨false, false⟩ floatNode.key twoNode ∧
      (lvAvlTreeKeySubscrCmp floatNode.key twoNode).1.key_iconv = true ∧
      twoNode.Before floatNode ∧ floatNode.Before textNode ∧ twoNode.Before textNode ∧
      ¬ twoNode.Before twoNode ∧
      (twoNode.Before textNode ∨ twoNode.subscript = textNode.subscript ∨
        textNode.Before twoNode) := by
  have two : twoNode.ValidKey :=
    ⟨fun _ => .inl ⟨rfl, rfl, by decide⟩, rfl, nofun, nofun⟩
  have isFloat : floatNode.key.IsFloat := by
    constructor <;> decide
  have float : floatNode.ValidKey := ⟨fun _ => .inr isFloat, rfl, nofun, nofun⟩
  have text : textNode.ValidKey := ⟨nofun, rfl, fun _ => rfl, nofun⟩
  have first : twoNode.Before floatNode := by
    unfold LvTreeNode.Before
    decide +kernel
  have second : floatNode.Before textNode := by
    unfold LvTreeNode.Before
    decide +kernel
  obtain ⟨exact, irreflexive, transitive, total⟩ := local_keys_strictly_ordered ⟨false, false⟩
  exact ⟨exact _ _ float.valid two, by decide +kernel, first, second,
    transitive _ _ _ two float text first second, irreflexive _ two, total _ _ two text⟩

end Ydb
