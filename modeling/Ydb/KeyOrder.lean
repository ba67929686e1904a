import Ydb.SubscriptNumbers

/-!
# Keys in collation order

M collates the subscripts of a global as follows: numbers by value, then
nonempty strings by bytes, with the empty string before all numbers under
standard null collation and between numbers and strings otherwise. Lists of
subscripts are compared element by element, and a list comes before its proper
extensions. Keys built by `mval2subsc` compare bytewise in exactly this order.

Every pair of different subscripts has codes that diverge within their
delimiters, so nothing appended later can change the comparison.
-/

namespace Ydb

open Lib

/-! ## Collation -/

/-- A subscript as collation sees it. -/
inductive Subscript where
  | null
  | number (value : ℚ)
  | string (bytes : List UInt8)

namespace Subscript

/-- The class of a subscript; numbers and strings are compared within theirs. -/
def rank (std_null_coll : Bool) : Subscript → Nat
  | null => if std_null_coll then 0 else 2
  | number _ => 1
  | string _ => 3

/-- The order of subscripts in M. -/
def collate (std_null_coll : Bool) : Subscript → Subscript → Ordering
  | number x, number y => compare x y
  | string x, string y => compare x y
  | s, t => compare (s.rank std_null_coll) (t.rank std_null_coll)

/-- Element by element, a list before its proper extensions. -/
def collateLists (std_null_coll : Bool) : List Subscript → List Subscript → Ordering :=
  List.compareLex (collate std_null_coll)

end Subscript

/-! ## Codes of subscripts -/

/-- The escaped form of one character. -/
def escapeByte (ch : UInt8) : List UInt8 :=
  if ch ≤ 1 then [STR_SUB_ESCAPE, ch + 1] else [ch]

/-- A string with 0 and 1 escaped. -/
def escape (bytes : List UInt8) : List UInt8 := bytes.flatMap escapeByte

/-- The bytes that stand for a subscript, without its delimiter. -/
inductive Subscript.Code (std_null_coll : Bool) : Subscript → List UInt8 → Prop
  | null : Code std_null_coll .null
      [if std_null_coll then SUBSCRIPT_STDCOL_NULL else STR_SUB_PREFIX]
  | zero : Code std_null_coll (.number 0) [SUBSCRIPT_ZERO]
  | decimal (d : Decimal) (inRange : d.InRange) : Code std_null_coll (.number d.value) d.code
  | string (bytes : List UInt8) (some : bytes ≠ []) :
      Code std_null_coll (.string bytes) (STR_SUB_PREFIX :: escape bytes)

theorem complement_reverses (x y : UInt8) (smaller : x < y) : ~~~ y < ~~~ x := by
  rw [UInt8.lt_iff_toNat_lt] at *
  simp only [UInt8.toNat_not, UInt8.size]
  have := x.toNat_lt
  have := y.toNat_lt
  omega

/-! ## Numbers -/

namespace Decimal

/-- The exponent byte of a magnitude in range. -/
theorem magnitudeCode_head (d : Decimal) (inRange : d.InRange) : ∃ first rest,
    d.magnitudeCode = first :: rest ∧ (first.toNat : Int) = d.exp + 190 := by
  refine ⟨_, _, rfl, ?_⟩
  obtain ⟨low, high⟩ := inRange
  simp only [SUBSCRIPT_BIAS, UInt8.toNat_ofNat']
  omega

/-- A smaller magnitude has the smaller code, closed by a delimiter. -/
theorem magnitudeCode_diverges {c d : Decimal} (cRange : c.InRange) (dRange : d.InRange)
    (smaller : c.exp < d.exp ∨ (c.exp = d.exp ∧ c.mant < d.mant)) :
    Diverges (c.magnitudeCode ++ [0]) (d.magnitudeCode ++ [0]) := by
  rcases smaller with below | ⟨same, below⟩
  · obtain ⟨first, rest, code, value⟩ := c.magnitudeCode_head cRange
    obtain ⟨second, others, otherCode, otherValue⟩ := d.magnitudeCode_head dRange
    rw [code, otherCode]
    exact .here (by rw [UInt8.lt_iff_toNat_lt]; omega)
  · rw [magnitudeCode, magnitudeCode, same]
    refine .later (stripZeros_diverges (pos_code.getD · 0) 0 ?_ ?_ ?_)
    · exact digits_diverge 100 9 c.mant d.mant (by decide) d.hi below
    · intro x member y other smaller
      have xSmall := digits_lt 100 9 c.mant (by decide) x member
      have ySmall := digits_lt 100 9 d.mant (by decide) y other
      rw [UInt8.lt_iff_toNat_lt, pos_code_toNat x xSmall, pos_code_toNat y ySmall]
      omega
    · intro x member
      have xSmall := digits_lt 100 9 d.mant (by decide) x member
      rw [UInt8.lt_iff_toNat_lt, pos_code_toNat x xSmall]
      exact Nat.succ_pos _

/-- The first byte of a code tells the sign: negative below zero's byte, positive
above it. -/
theorem code_head (d : Decimal) (inRange : d.InRange) : ∃ first rest, d.code = first :: rest ∧
    (if d.neg then 1 < first.toNat ∧ first.toNat < 128
     else 128 < first.toNat ∧ first.toNat < 255) := by
  obtain ⟨first, rest, code, value⟩ := d.magnitudeCode_head inRange
  obtain ⟨low, high⟩ := inRange
  rw [Decimal.code, code]
  cases d.neg
  · exact ⟨first, rest, rfl, by simp only [Bool.false_eq_true, if_false]; omega⟩
  · refine ⟨~~~ first, _, rfl, ?_⟩
    simp only [if_true, UInt8.toNat_not, UInt8.size]
    omega

/-- Smaller numbers have smaller codes. -/
theorem code_diverges {c d : Decimal} (cRange : c.InRange) (dRange : d.InRange)
    (smaller : c.value < d.value) : Diverges (c.code ++ [0]) (d.code ++ [0]) := by
  have cPositive := c.magnitude_pos
  have dPositive := d.magnitude_pos
  obtain ⟨cFirst, cRest, cCode, cHead⟩ := c.code_head cRange
  obtain ⟨dFirst, dRest, dCode, dHead⟩ := d.code_head dRange
  unfold value at smaller
  cases cSign : c.neg <;> cases dSign : d.neg <;>
    simp only [cSign, dSign, signFactor, if_true, Bool.false_eq_true, if_false] at smaller cHead dHead
  · -- Both positive.
    have order : c.exp < d.exp ∨ (c.exp = d.exp ∧ c.mant < d.mant) := by
      rcases magnitude_cases c d with ⟨exps, mants⟩ | below | above
      · rw [exps, mants] at smaller
        linarith
      · exact below
      · have larger := magnitude_lt above
        linarith
    rw [code, code, cSign, dSign]
    exact magnitudeCode_diverges cRange dRange order
  · linarith
  · rw [cCode, dCode]
    exact .here (by rw [UInt8.lt_iff_toNat_lt]; omega)
  · -- Both negative: the magnitudes are in the opposite order.
    have order : d.exp < c.exp ∨ (d.exp = c.exp ∧ d.mant < c.mant) := by
      rcases magnitude_cases c d with ⟨exps, mants⟩ | below | above
      · rw [exps, mants] at smaller
        linarith
      · have larger := magnitude_lt below
        linarith
      · exact above
    rw [code, code, cSign, dSign]
    exact ((magnitudeCode_diverges dRange cRange order).map_reversing
      complement_reverses).append [0] [0]

theorem code_head_of_neg (d : Decimal) (inRange : d.InRange) (negative : d.value < 0) :
    ∃ first rest, d.code = first :: rest ∧ 1 < first.toNat ∧ first.toNat < 128 := by
  obtain ⟨first, rest, code, head⟩ := d.code_head inRange
  have positive := d.magnitude_pos
  unfold value at negative
  cases sign : d.neg <;> rw [sign] at head negative <;> simp only [signFactor] at negative
  · linarith
  · exact ⟨first, rest, code, head⟩

theorem code_head_of_pos (d : Decimal) (inRange : d.InRange) (positive : 0 < d.value) :
    ∃ first rest, d.code = first :: rest ∧ 128 < first.toNat ∧ first.toNat < 255 := by
  obtain ⟨first, rest, code, head⟩ := d.code_head inRange
  have magnitude := d.magnitude_pos
  unfold value at positive
  cases sign : d.neg <;> rw [sign] at head positive <;> simp only [signFactor] at positive
  · exact ⟨first, rest, code, head⟩
  · linarith

end Decimal

/-! ## Strings -/

theorem escapeByte_head (ch : UInt8) : ∃ first rest, escapeByte ch = first :: rest ∧
    0 < first.toNat := by
  unfold escapeByte
  split
  · exact ⟨_, _, rfl, by decide⟩
  · rename_i large
    refine ⟨ch, [], rfl, ?_⟩
    rw [UInt8.le_iff_toNat_le] at large
    simp at large
    omega

theorem escapeByte_diverges (x y : UInt8) (smaller : x < y) :
    Diverges (escapeByte x) (escapeByte y) := by
  rw [UInt8.lt_iff_toNat_lt] at smaller
  by_cases xLow : x ≤ 1
  · by_cases yLow : y ≤ 1
    · rw [UInt8.le_iff_toNat_le] at xLow yLow
      have xZero : x = 0 := UInt8.toNat_inj.mp (by simp at *; omega)
      have yOne : y = 1 := UInt8.toNat_inj.mp (by simp at *; omega)
      subst xZero yOne
      exact .later (.here (by decide))
    · rw [escapeByte, escapeByte, if_pos xLow, if_neg yLow]
      exact .here (by simpa using yLow)
  · by_cases yLow : y ≤ 1
    · rw [UInt8.le_iff_toNat_le] at xLow yLow
      omega
    · rw [escapeByte, escapeByte, if_neg xLow, if_neg yLow]
      exact .here (by rw [UInt8.lt_iff_toNat_lt]; exact smaller)

/-- Escaping keeps the bytewise order of strings. -/
theorem escape_diverges (left right : List UInt8) (smaller : compare left right = .lt) :
    Diverges (escape left ++ [0]) (escape right ++ [0]) := by
  induction left generalizing right with
  | nil =>
    cases right with
    | nil => cases smaller
    | cons y right =>
      obtain ⟨first, rest, same, positive⟩ := escapeByte_head y
      rw [escape, escape, List.flatMap_cons, same]
      exact .here (by rw [UInt8.lt_iff_toNat_lt]; exact positive)
  | cons x left ih =>
    cases right with
    | nil => cases smaller
    | cons y right =>
      rw [List.compare_eq_compareLex, List.compareLex_cons_cons] at smaller
      rw [escape, escape, List.flatMap_cons, List.flatMap_cons, List.append_assoc,
        List.append_assoc]
      cases heads : compare x y with
      | lt =>
        exact (escapeByte_diverges x y (Std.compare_eq_lt.mp heads)).append _ _
      | eq =>
        obtain rfl := Std.LawfulEqOrd.compare_eq_iff_eq.mp heads
        rw [heads, Ordering.eq_then] at smaller
        exact (ih right smaller).prepend _
      | gt =>
        rw [heads, Ordering.gt_then] at smaller
        cases smaller

/-! ## All subscripts -/

namespace Subscript

/-- Every code starts with a byte above the delimiter. -/
theorem Code.head {std : Bool} {s : Subscript} {code : List UInt8} (coded : Code std s code) :
    ∃ first rest, code = first :: rest ∧ 0 < first.toNat := by
  cases coded with
  | null => cases std <;> exact ⟨_, _, rfl, by decide⟩
  | zero => exact ⟨_, _, rfl, by decide⟩
  | decimal d inRange =>
    obtain ⟨first, rest, code, head⟩ := d.code_head inRange
    refine ⟨first, rest, code, ?_⟩
    split at head <;> omega
  | string bytes some => exact ⟨_, _, rfl, by decide⟩

/-- A subscript has one code. -/
theorem Code.unique {std : Bool} {s : Subscript} {code other : List UInt8}
    (coded : Code std s code) (otherCoded : Code std s other) : code = other := by
  cases coded with
  | null => cases otherCoded with | null => rfl
  | zero =>
    generalize value : Subscript.number 0 = s at otherCoded
    cases otherCoded with
    | null => cases value
    | zero => rfl
    | decimal d inRange => exact absurd (Subscript.number.inj value).symm d.value_ne_zero
    | string bytes some => cases value
  | decimal d inRange =>
    generalize value : Subscript.number d.value = s at otherCoded
    cases otherCoded with
    | null => cases value
    | zero => exact absurd (Subscript.number.inj value) d.value_ne_zero
    | decimal e otherRange => rw [Decimal.value_injective (Subscript.number.inj value)]
    | string bytes some => cases value
  | string bytes some => cases otherCoded with | string => rfl

/-- A number is coded between the two null codes and below every string. -/
theorem Code.number_head {std : Bool} {q : ℚ} {code : List UInt8}
    (coded : Code std (.number q) code) :
    ∃ first rest, code = first :: rest ∧ 1 < first.toNat ∧ first.toNat < 255 := by
  cases coded with
  | zero => exact ⟨_, _, rfl, by decide, by decide⟩
  | decimal d inRange =>
    obtain ⟨first, rest, code, head⟩ := d.code_head inRange
    refine ⟨first, rest, code, ?_⟩
    split at head <;> omega

/-- Numbers in order have codes in order. -/
theorem Code.number_diverges {std : Bool} {x y : ℚ} {code other : List UInt8}
    (coded : Code std (.number x) code) (otherCoded : Code std (.number y) other)
    (smaller : x < y) : Diverges (code ++ [0]) (other ++ [0]) := by
  cases coded with
  | zero =>
    cases otherCoded with
    | zero => exact absurd smaller (lt_irrefl 0)
    | decimal d inRange =>
      obtain ⟨first, rest, same, above, _⟩ := d.code_head_of_pos inRange smaller
      rw [same]
      exact .here (by rw [UInt8.lt_iff_toNat_lt]; exact above)
  | decimal c cRange =>
    cases otherCoded with
    | zero =>
      obtain ⟨first, rest, same, _, below⟩ := c.code_head_of_neg cRange smaller
      rw [same]
      exact .here (by rw [UInt8.lt_iff_toNat_lt]; exact below)
    | decimal d dRange => exact Decimal.code_diverges cRange dRange smaller

/-- Subscripts in collation order have codes that diverge in that order. -/
theorem Code.diverges {std : Bool} {s t : Subscript} {code other : List UInt8}
    (coded : Code std s code) (otherCoded : Code std t other)
    (smaller : collate std s t = .lt) : Diverges (code ++ [0]) (other ++ [0]) := by
  cases s with
  | null =>
    cases coded
    cases t with
    | null => cases std <;> cases smaller
    | number y =>
      obtain ⟨first, rest, same, above, _⟩ := otherCoded.number_head
      cases std
      · cases smaller
      · rw [same]
        exact .here (by rw [UInt8.lt_iff_toNat_lt]; exact above)
    | string bytes =>
      cases otherCoded with
      | string _ some =>
        cases bytes with
        | nil => exact absurd rfl some
        | cons ch rest =>
          obtain ⟨first, escaped, same, positive⟩ := escapeByte_head ch
          rw [escape, List.flatMap_cons, same]
          cases std
          · exact .later (.here (by rw [UInt8.lt_iff_toNat_lt]; exact positive))
          · exact .here (by decide)
  | number x =>
    cases t with
    | null =>
      obtain ⟨first, rest, same, _, below⟩ := coded.number_head
      cases otherCoded
      cases std
      · rw [same]
        exact .here (by rw [UInt8.lt_iff_toNat_lt]; exact below)
      · cases smaller
    | number y => exact coded.number_diverges otherCoded (compare_lt_iff_lt.mp smaller)
    | string bytes =>
      obtain ⟨first, rest, same, _, below⟩ := coded.number_head
      cases otherCoded
      rw [same]
      exact .here (by rw [UInt8.lt_iff_toNat_lt]; exact below)
  | string bytes =>
    cases t with
    | null => cases std <;> cases smaller
    | number y => cases smaller
    | string others =>
      cases coded
      cases otherCoded
      exact .later (escape_diverges bytes others smaller)

theorem collate_swap (std : Bool) (s t : Subscript) :
    collate std t s = (collate std s t).swap := by
  cases s <;> cases t <;> exact Std.OrientedOrd.eq_swap

theorem collate_eq {std : Bool} {s t : Subscript} (same : collate std s t = .eq) : s = t := by
  cases s <;> cases t
  case number.number => rw [compare_eq_iff_eq.mp same]
  case string.string => rw [Std.LawfulEqOrd.eq_of_compare same]
  case null.null => rfl
  all_goals cases std <;> cases same

end Subscript

/-! ## Lists of subscripts -/

/-- The bytes of coded subscripts, each with its delimiter. -/
def keyBytes (codes : List (List UInt8)) : List UInt8 := codes.flatMap (· ++ [KEY_DELIMITER])

/-- Terminated keys compare as the lists of their subscripts collate. -/
theorem compare_keyBytes (std : Bool) {ss ts : List Subscript} {codes others : List (List UInt8)}
    (coded : List.Forall₂ (Subscript.Code std) ss codes)
    (otherCoded : List.Forall₂ (Subscript.Code std) ts others) :
    compare (keyBytes codes ++ [KEY_DELIMITER]) (keyBytes others ++ [KEY_DELIMITER]) =
      Subscript.collateLists std ss ts := by
  induction coded generalizing ts others with
  | nil =>
    cases otherCoded with
    | nil => rfl
    | @cons t other ts others first rest =>
      obtain ⟨head, tail, same, positive⟩ := first.head
      have apart : Diverges (keyBytes [] ++ [KEY_DELIMITER])
          (keyBytes (other :: others) ++ [KEY_DELIMITER]) := by
        rw [keyBytes, keyBytes, List.flatMap_cons, same]
        exact .here (by rw [UInt8.lt_iff_toNat_lt]; exact positive)
      exact apart.compare_eq_lt
  | @cons s code ss codes first rest ih =>
    cases otherCoded with
    | nil =>
      obtain ⟨head, tail, same, positive⟩ := first.head
      have apart : Diverges (keyBytes [] ++ [KEY_DELIMITER])
          (keyBytes (code :: codes) ++ [KEY_DELIMITER]) := by
        rw [keyBytes, keyBytes, List.flatMap_cons, same]
        exact .here (by rw [UInt8.lt_iff_toNat_lt]; exact positive)
      exact apart.compare_eq_gt
    | @cons t other ts others otherFirst otherRest =>
      have split : ∀ (c : List UInt8) (cs : List (List UInt8)),
          keyBytes (c :: cs) ++ [KEY_DELIMITER] =
            (c ++ [KEY_DELIMITER]) ++ (keyBytes cs ++ [KEY_DELIMITER]) := by
        intro c cs
        rw [keyBytes, List.flatMap_cons, List.append_assoc]
        rfl
      rw [split, split, Subscript.collateLists, List.compareLex_cons_cons]
      cases order : Subscript.collate std s t with
      | lt =>
        rw [Ordering.lt_then]
        exact ((first.diverges otherFirst order).append _ _).compare_eq_lt
      | eq =>
        obtain rfl := Subscript.collate_eq order
        rw [first.unique otherFirst, compare_append_left, Ordering.eq_then]
        exact ih otherRest
      | gt =>
        have swapped : Subscript.collate std t s = .lt := by
          rw [Subscript.collate_swap, order]
          rfl
        rw [Ordering.gt_then]
        exact ((otherFirst.diverges first swapped).append _ _).compare_eq_gt

/-- Lists that collate equal are equal. -/
theorem Subscript.collateLists_eq_iff (std : Bool) (ss ts : List Subscript) :
    collateLists std ss ts = .eq ↔ ss = ts := by
  induction ss generalizing ts with
  | nil => cases ts <;> simp [collateLists, List.compareLex_nil_nil, List.compareLex_nil_cons]
  | cons s ss ih =>
    cases ts with
    | nil => simp [collateLists, List.compareLex_cons_nil]
    | cons t ts =>
      rw [collateLists, List.compareLex_cons_cons, List.cons.injEq, ← ih ts]
      constructor
      · intro same
        cases heads : collate std s t <;> rw [heads] at same
        · cases same
        · exact ⟨collate_eq heads, same⟩
        · cases same
      · rintro ⟨rfl, rest⟩
        have self : collate std s s = .eq := by
          cases s <;> exact Std.ReflOrd.compare_self
        rw [self, Ordering.eq_then]
        exact rest

end Ydb
