import Ydb.KeyBuilding
import Ydb.LocalTreeKeys
import Mathlib.Data.Sign.Basic

/-!
# Comparing numbers

`numcmp` orders two numbers from their internal forms. Two `MV_INT` values are
ordered by `m[1]`; otherwise the one in `MV_INT` form is promoted, and sign,
exponent, high digits and low digits decide in turn. Its answer is the sign of
what a lookup in a local tree computes for the same pair, and it agrees with the
bytewise order of the two numbers as global subscripts.
-/

namespace Ydb

/-- `MV_FORCE_NUM` on a defined value. -/
def mvForceNum (tg : ThreadGbl) (v : Mval) : Except RtsError Mval :=
  if v.mvtype.nm = false then (s2n tg v).map (·.u)
  else if v.mvtype.sqlnull then .error .zysqlnullnotvalid
  else .ok v

/-- The comparison of two floats. -/
def numcmpFloats (u v : Mval) : Int :=
  let u_sgn : Int := if u.sgn then -1 else 1
  let v_sgn : Int := if v.sgn then -1 else 1
  if u_sgn ≠ v_sgn then u_sgn
  else
    let exp_diff : Int := u.e - v.e
    if exp_diff ≠ 0 then if exp_diff < 0 then -u_sgn else u_sgn
    else
      let m1_diff := u.m1 - v.m1
      if m1_diff ≠ 0 then if m1_diff < 0 then -u_sgn else u_sgn
      else if u.m1 = 0 then 0
      else
        let m0_diff := u.m0 - v.m0
        if m0_diff ≠ 0 then if m0_diff < 0 then -u_sgn else u_sgn else 0

/-- The comparison of two values with valid numeric fields. -/
def numcmpNumbers (u v : Mval) : Int :=
  if u.mvtype.int && v.mvtype.int then
    if v.m1 < u.m1 then 1 else if u.m1 = v.m1 then 0 else -1
  else if u.mvtype.int then numcmpFloats (promote u) v
  else if v.mvtype.int then numcmpFloats u (promote v)
  else numcmpFloats u v

/-- Compare two numbers: -1, 0 or 1. -/
def numcmp (tg : ThreadGbl) (u v : Mval) : Except RtsError Int :=
  if u.mvtype.sqlnull || v.mvtype.sqlnull then .error .zysqlnullnotvalid
  else do
    let u ← mvForceNum tg u
    let v ← mvForceNum tg v
    return numcmpNumbers u v

/-! ## The order of the values -/

/-- A local tree node with the float fields of a value for its key. -/
def Mval.floatNode (v : Mval) : LvTreeNode where
  v := v
  sbs_child := none
  key_mvtype := ⟨true, false, false, false, false⟩
  key_canonical := true
  balance := .even
  descent_dir := .left
  key_sgn := v.sgn
  key_e := v.e
  key_iconv := false
  key_m0 := v.m0
  key_m1 := v.m1
  key_str := []
  avl_left := none
  avl_right := none
  avl_parent := none

theorem sign_scaled (difference : Int) (neg : Bool) (differ : difference ≠ 0) :
    (difference * (if neg then -1 else 1)).sign =
      if difference < 0 then -(if neg then -1 else 1) else if neg then -1 else 1 := by
  rcases lt_or_gt_of_ne differ with below | above
  · rw [if_pos below, Int.sign_mul, Int.sign_eq_neg_one_of_neg below]
    cases neg <;> rfl
  · rw [if_neg (not_lt.mpr above.le), Int.sign_mul, Int.sign_eq_one_of_pos above]
    cases neg <;> rfl

/-- The answer is the sign of the local tree's comparison. -/
theorem numcmpFloats_eq_sign (u v : Mval) :
    numcmpFloats u v = (compareFloats u v.floatNode).sign := by
  have spelled : compareFloats u v.floatNode =
      if (if u.sgn then (-1 : Int) else 1) ≠ if v.sgn then -1 else 1 then
        (if u.sgn then (-1 : Int) else 1)
      else if (u.e : Int) - v.e ≠ 0 then ((u.e : Int) - v.e) * if u.sgn then -1 else 1
      else if u.m1 - v.m1 ≠ 0 then (u.m1 - v.m1) * if u.sgn then -1 else 1
      else if u.m1 = 0 then 0 else (u.m0 - v.m0) * if u.sgn then -1 else 1 := rfl
  rw [spelled]
  unfold numcmpFloats
  dsimp only
  by_cases signs : (if u.sgn then (-1 : Int) else 1) = if v.sgn then -1 else 1
  · rw [if_neg (not_not.mpr signs), if_neg (not_not.mpr signs)]
    by_cases exps : (u.e : Int) - v.e = 0
    · rw [if_neg (not_not.mpr exps), if_neg (not_not.mpr exps)]
      by_cases highs : u.m1 - v.m1 = 0
      · rw [if_neg (not_not.mpr highs), if_neg (not_not.mpr highs)]
        by_cases none : u.m1 = 0
        · rw [if_pos none, if_pos none]
          rfl
        · rw [if_neg none, if_neg none]
          by_cases lows : u.m0 - v.m0 = 0
          · rw [if_neg (not_not.mpr lows), lows, zero_mul]
            rfl
          · rw [if_pos lows, sign_scaled _ _ lows]
      · rw [if_pos highs, if_pos highs, sign_scaled _ _ highs]
    · rw [if_pos exps, if_pos exps, sign_scaled _ _ exps]
  · rw [if_pos signs, if_pos signs]
    cases u.sgn <;> rfl

/-- The sign of a comparison that tells an order is the sign of the difference. -/
theorem Orders.sign_eq {result : Int} {x y : ℚ} (orders : Orders result x y) :
    result.sign = SignType.sign (x - y) := by
  rcases orders with ⟨negative, less⟩ | ⟨rfl, rfl⟩ | ⟨positive, more⟩
  · rw [Int.sign_eq_neg_one_of_neg negative, sign_neg (sub_neg.mpr less)]
    rfl
  · rw [sub_self, sign_zero]
    rfl
  · rw [Int.sign_eq_one_of_pos positive, sign_pos (sub_pos.mpr more)]
    rfl

/-- The form the comparison of two floats needs: a float, or the zero that
promotion leaves. -/
def Mval.Promoted (w : Mval) : Prop := w.IsFloat ∨ w = literal_zero

theorem Mval.Promoted.value_of_zero : literal_zero.value = 0 := by
  simp [literal_zero, Mval.value]

theorem promote_promoted {v : Mval} (isInt : v.IsInt) :
    (promote v).Promoted ∧ (promote v).value = v.value := by
  by_cases zero : v.m1 = 0
  · have shape : promote v = literal_zero := by rw [promote, if_pos zero]
    constructor
    · exact .inr shape
    · rw [shape, Mval.Promoted.value_of_zero, isInt.value_eq_zero.mpr zero]
  · obtain ⟨isFloat, value⟩ := promote_isFloat isInt zero
    exact ⟨.inl isFloat, value⟩

theorem floatNode_floatForm {v : Mval} (isFloat : v.IsFloat) :
    v.floatNode.floatForm.IsFloat ∧ v.floatNode.floatForm.value = v.value := by
  constructor
  · exact ⟨rfl, rfl, isFloat.m1_lo, isFloat.m1_hi, isFloat.m0_lo, isFloat.m0_hi, isFloat.e_lo,
      isFloat.e_hi⟩
  · simp [LvTreeNode.floatForm, Mval.floatNode, Mval.value, isFloat.int]

/-- Of two values in float form at most one of which is zero, the order is found. -/
theorem numcmpFloats_eq {u v : Mval} (uForm : u.Promoted) (vForm : v.Promoted)
    (some : u.IsFloat ∨ v.IsFloat) :
    numcmpFloats u v = SignType.sign (u.value - v.value) := by
  rw [numcmpFloats_eq_sign]
  apply Orders.sign_eq
  rcases vForm with vFloat | rfl
  · obtain ⟨form, value⟩ := floatNode_floatForm vFloat
    rw [← value]
    rcases uForm with uFloat | rfl
    · exact compareFloats_orders uFloat form
    · rw [Mval.Promoted.value_of_zero]
      exact compareFloats_of_zero form
  · have uFloat : u.IsFloat := some.elim id fun isFloat => absurd isFloat.int (by decide)
    rw [Mval.Promoted.value_of_zero]
    exact compareFloats_zero uFloat rfl

theorem value_order_of_ints {u v : Mval} (uInt : u.IsInt) (vInt : v.IsInt) :
    Orders (u.m1 - v.m1) u.value v.value := by
  have scale : (0 : ℚ) < MV_BIAS := by norm_num [MV_BIAS]
  simp only [Orders, Mval.value, uInt.int, vInt.int, if_true, div_lt_div_iff_of_pos_right scale,
    div_left_inj' scale.ne', Int.cast_lt, Int.cast_inj]
  omega

/-- The answer is the sign of the exact difference. -/
theorem numcmpNumbers_eq {u v : Mval} (uForm : u.IsInt ∨ u.IsFloat) (vForm : v.IsInt ∨ v.IsFloat) :
    numcmpNumbers u v = SignType.sign (u.value - v.value) := by
  rcases uForm with uInt | uFloat
  · rcases vForm with vInt | vFloat
    · rw [numcmpNumbers, uInt.int, vInt.int, Bool.and_true, if_pos rfl,
        ← (value_order_of_ints uInt vInt).sign_eq]
      rcases lt_trichotomy u.m1 v.m1 with less | same | more
      · rw [if_neg less.not_gt, if_neg less.ne, Int.sign_eq_neg_one_of_neg (by omega)]
      · rw [if_neg (by omega), if_pos same, same, sub_self]
        rfl
      · rw [if_pos more, Int.sign_eq_one_of_pos (by omega)]
    · obtain ⟨form, value⟩ := promote_promoted uInt
      rw [numcmpNumbers, uInt.int, vFloat.int, Bool.and_false, if_neg Bool.false_ne_true,
        if_pos rfl, ← value]
      exact numcmpFloats_eq form (.inl vFloat) (.inr vFloat)
  · rcases vForm with vInt | vFloat
    · obtain ⟨form, value⟩ := promote_promoted vInt
      rw [numcmpNumbers, uFloat.int, vInt.int, Bool.false_and, if_neg Bool.false_ne_true,
        if_neg Bool.false_ne_true, if_pos rfl, ← value]
      exact numcmpFloats_eq (.inl uFloat) form (.inl uFloat)
    · rw [numcmpNumbers, uFloat.int, vFloat.int, Bool.false_and, if_neg Bool.false_ne_true,
        if_neg Bool.false_ne_true, if_neg Bool.false_ne_true]
      exact numcmpFloats_eq (.inl uFloat) (.inl vFloat) (.inl uFloat)

/-! ## The order of the keys -/

/-- A number that is used as such: its numeric fields are valid, and they are the
value of its string if it has one. -/
structure Mval.IsNumber (v : Mval) : Prop where
  canonical : v.Canonical
  exact : v.mvtype.numApprox = false
  notNull : v.mvtype.sqlnull = false

theorem Mval.Canonical.form {v : Mval} (canonical : v.Canonical) : v.IsInt ∨ v.IsFloat :=
  canonical.imp_right And.left

theorem Mval.IsNumber.nm {v : Mval} (number : v.IsNumber) : v.mvtype.nm = true :=
  number.canonical.form.elim (·.nm) (·.nm)

/-- A value with valid numeric fields is left as it is. -/
theorem mvForceNum_eq (tg : ThreadGbl) {v : Mval} (nm : v.mvtype.nm = true)
    (notNull : v.mvtype.sqlnull = false) : mvForceNum tg v = .ok v := by
  simp [mvForceNum, nm, notNull]

theorem mvForceNum_of_number (tg : ThreadGbl) {v : Mval} (number : v.IsNumber) :
    mvForceNum tg v = .ok v := mvForceNum_eq tg number.nm number.notNull

theorem mvForceNum_of_canonical (tg : ThreadGbl) {v : Mval} (canonical : v.Canonical)
    (notNull : v.mvtype.sqlnull = false) : mvForceNum tg v = .ok v :=
  mvForceNum_eq tg (canonical.form.elim (·.nm) (·.nm)) notNull

/-- A number is appended with its numeric code, whatever the collation of strings. -/
theorem mval2subsc_of_number {env : SubscEnv} {v : Mval} (key : GvKey) (std : Bool)
    (numeric : (env.transform && env.gv_target.nct) = false) (number : v.IsNumber) :
    mval2subsc env v key std = (appendSubscript key (encodeNumber v)).map fun key => (v, key) := by
  simp only [mval2subsc, numeric, Bool.false_eq_true, if_false, number.notNull, number.exact,
    Bool.false_or, settleType, number.nm, false_and, subscriptBytes, Bool.true_eq_false]
  change (do
    let key ← appendSubscript key (encodeNumber v)
    return (v, key)) = _
  cases appendSubscript key (encodeNumber v) <;> rfl

/-- Keys that differ in one number at their end compare as the numbers do. -/
theorem compare_number_keys {u v : Mval} (uForm : u.IsInt ∨ u.IsFloat)
    (vForm : v.IsInt ∨ v.IsFloat) {key k₁ k₂ : GvKey} {bytes : List UInt8}
    (terminated : key.Terminated bytes) (first : appendSubscript key (encodeNumber u) = .ok k₁)
    (second : appendSubscript key (encodeNumber v) = .ok k₂) :
    compare k₁.base k₂.base = compare u.value v.value := by
  have coded : List.Forall₂ (Subscript.Code false) [.number u.value] [encodeNumber u] :=
    .cons (encodeNumber_code false uForm) .nil
  have otherCoded : List.Forall₂ (Subscript.Code false) [.number v.value] [encodeNumber v] :=
    .cons (encodeNumber_code false vForm) .nil
  have order := compare_keyBytes false coded otherCoded
  have spelled : ∀ code : List UInt8, keyBytes [code] = code ++ [KEY_DELIMITER] := by
    intro code
    simp [keyBytes]
  rw [spelled, spelled] at order
  rw [(appendSubscript_terminated terminated first).1.base,
    (appendSubscript_terminated terminated second).1.base, List.append_assoc bytes,
    List.append_assoc bytes, Lib.compare_append_left, order, Subscript.collateLists,
    List.compareLex_cons_cons]
  exact Ordering.then_eq

theorem compare_sign (x y : ℚ) :
    compare ((SignType.sign (x - y) : SignType) : Int) 0 = compare x y := by
  rcases lt_trichotomy x y with less | rfl | more
  · rw [sign_neg (sub_neg.mpr less), compare_lt_iff_lt.mpr less]
    rfl
  · rw [sub_self, sign_zero, compare_eq_iff_eq.mpr rfl]
    rfl
  · rw [sign_pos (sub_pos.mpr more), compare_gt_iff_gt.mpr more]
    rfl

/-- Local and global collation of numbers agree: the comparison of two canonical
numbers is the sign of their exact difference and the sign of the bytewise
comparison of the keys that end in them. -/
theorem numbers_collate_alike (tg : ThreadGbl) {env : SubscEnv} (std_null_coll : Bool)
    (numeric : (env.transform && env.gv_target.nct) = false) {u v : Mval} (uNumber : u.IsNumber)
    (vNumber : v.IsNumber) {key : GvKey} {bytes : List UInt8} (terminated : key.Terminated bytes)
    {u' v' : Mval} {k₁ k₂ : GvKey} (first : mval2subsc env u key std_null_coll = .ok (u', k₁))
    (second : mval2subsc env v key std_null_coll = .ok (v', k₂)) :
    ∃ result : Int, numcmp tg u v = .ok result ∧
      result = SignType.sign (u.value - v.value) ∧
      compare k₁.base k₂.base = compare result 0 := by
  have answered : numcmp tg u v = .ok (numcmpNumbers u v) := by
    simp only [numcmp, uNumber.notNull, vNumber.notNull, Bool.or_self, Bool.false_eq_true, if_false,
      mvForceNum_of_number tg uNumber, mvForceNum_of_number tg vNumber]
    rfl
  have exact := numcmpNumbers_eq uNumber.canonical.form vNumber.canonical.form
  refine ⟨_, answered, exact, ?_⟩
  rw [mval2subsc_of_number key std_null_coll numeric uNumber] at first
  rw [mval2subsc_of_number key std_null_coll numeric vNumber] at second
  cases firstKey : appendSubscript key (encodeNumber u) with
  | error e =>
    rw [firstKey] at first
    cases first
  | ok key₁ =>
    cases secondKey : appendSubscript key (encodeNumber v) with
    | error e =>
      rw [secondKey] at second
      cases second
    | ok key₂ =>
      rw [firstKey] at first
      rw [secondKey] at second
      obtain rfl := (Prod.mk.inj (Except.ok.inj first)).2
      obtain rfl := (Prod.mk.inj (Except.ok.inj second)).2
      rw [exact, compare_sign]
      exact compare_number_keys uNumber.canonical.form vNumber.canonical.form terminated firstKey
        secondKey

/-- Two against 1234567.25, which has no `MV_INT` form. -/
theorem numbers_collate_alike_two_and_float :
    ∃ result : Int, numcmp ⟨false, false⟩
        ⟨⟨true, true, false, false, false⟩, false, 0, 0, 2000, []⟩
        ⟨⟨true, false, false, false, false⟩, false, 69, 0, 123456725, []⟩ = .ok result ∧
      compare ([0x78, 0, 0xbf, 0x21, 0, 0] : List UInt8)
        [0x78, 0, 0xc5, 0x13, 0x35, 0x57, 0x73, 0x51, 0, 0] = compare result 0 := by
  let two : Mval := ⟨⟨true, true, false, false, false⟩, false, 0, 0, 2000, []⟩
  let large : Mval := ⟨⟨true, false, false, false, false⟩, false, 69, 0, 123456725, []⟩
  let env : SubscEnv := ⟨⟨false, false⟩, true, ⟨false, none⟩⟩
  let key : GvKey := ⟨1052, 2, 0, [0x78, 0, 0]⟩
  have twoNumber : two.IsNumber := ⟨.inl ⟨rfl, rfl, by decide⟩, rfl, rfl⟩
  have isFloat : large.IsFloat := by
    constructor <;> decide
  have largeNumber : large.IsNumber := ⟨isFloat.canonical 8 rfl (by decide), rfl, rfl⟩
  have first : mval2subsc env two key true =
      .ok (two, ⟨1052, 5, 2, [0x78, 0, 0xbf, 0x21, 0, 0]⟩) := by decide +kernel
  have second : mval2subsc env large key true =
      .ok (large, ⟨1052, 9, 2, [0x78, 0, 0xc5, 0x13, 0x35, 0x57, 0x73, 0x51, 0, 0]⟩) := by
    decide +kernel
  have terminated : key.Terminated [0x78, 0] := ⟨rfl, rfl⟩
  obtain ⟨result, answered, _, collated⟩ := numbers_collate_alike ⟨false, false⟩ true rfl twoNumber
    largeNumber terminated first second
  exact ⟨result, answered, collated⟩

end Ydb
