import Ydb.KeyOrder

/-!
# Building keys

`mval2subsc` writes the code of the subscript that a value represents. Numbers in
either internal form, and strings that spell a canonical number, represent that
number; all other strings represent themselves. Without an alternative
collation, the key grows by the code and its delimiter, and stays terminated.
-/

namespace Ydb

open Lib

/-! ## Values as subscripts -/

/-- The value is used as a string: a fresh string, or one already known not to be
canonical. -/
def Mval.IsText (v : Mval) : Prop :=
  v.IsString ∨ (v.mvtype.numApprox = true ∧ v.mvtype.sqlnull = false)

/-- The subscript that a value stands for. -/
inductive Mval.Represents : Mval → Subscript → Prop
  | number {v : Mval} (form : v.IsInt ∨ v.IsFloat) (exact : v.mvtype.numApprox = false)
      (notNull : v.mvtype.sqlnull = false) : Represents v (.number v.value)
  | zeroText {v : Mval} (isString : v.IsString) (text : v.str = [Ascii.zero]) :
      Represents v (.number 0)
  | numeral {v : Mval} (isString : v.IsString) (d : Decimal) (inRange : d.InRange)
      (text : v.str = d.text) : Represents v (.number d.value)
  | null {v : Mval} (isText : v.IsText) (empty : v.str = []) : Represents v .null
  | string {v : Mval} (isText : v.IsText) (some : v.str ≠ [])
      (notNumeral : ¬ CanonicalText v.str) : Represents v (.string v.str)

theorem not_canonicalText_nil : ¬ CanonicalText [] := by
  rintro (impossible | ⟨d, _, text⟩)
  · cases impossible
  · obtain ⟨c, rest, body, _⟩ := d.text_body
    rw [body] at text
    simp at text

/-! ## One subscript -/

/-- No alternative collation is in force. -/
structure SubscEnv.Plain (env : SubscEnv) : Prop where
  nct : env.gv_target.nct = false
  collseq : env.gv_target.collseq = none

/-- A numeric form is encoded with the code of its number. -/
theorem encodeNumber_code (std : Bool) {v : Mval} (form : v.IsInt ∨ v.IsFloat) :
    Subscript.Code std (.number v.value) (encodeNumber v) := by
  rcases v.form_cases form with ⟨value, isInt, zero⟩ | ⟨d, value, inRange⟩
  · rw [encodeNumber_zero isInt zero, value]
    exact .zero
  · rw [encodeNumber_eq form d value, ← value]
    exact .decimal d inRange

/-- The bytes of a string are escaped. -/
theorem escapeString_eq {avail : Int} {bytes escaped : List UInt8}
    (copied : escapeString avail bytes = .ok escaped) : escaped = escape bytes := by
  induction bytes generalizing avail escaped with
  | nil =>
    obtain rfl := Except.ok.inj copied
    rfl
  | cons ch rest ih =>
    rw [escape, List.flatMap_cons]
    rw [escapeString] at copied
    by_cases low : ch ≤ 1
    · rw [if_pos low] at copied
      by_cases full : avail - 1 < 0
      · rw [if_pos full] at copied
        cases copied
      · rw [if_neg full] at copied
        cases after : escapeString (avail - 1) rest with
        | error e =>
          rw [after] at copied
          cases copied
        | ok behind =>
          rw [after] at copied
          obtain rfl := Except.ok.inj copied
          rw [ih after, escapeByte, if_pos low]
          rfl
    · rw [if_neg low] at copied
      cases after : escapeString avail rest with
      | error e =>
        rw [after] at copied
        cases copied
      | ok behind =>
        rw [after] at copied
        obtain rfl := Except.ok.inj copied
        rw [ih after, escapeByte, if_neg low]
        rfl

/-- A string becomes the code of its subscript. -/
theorem encodeString_code {key : GvKey} {std : Bool} {bytes subscript : List UInt8}
    (encoded : encodeString key std bytes = .ok subscript) :
    (bytes = [] ∧ Subscript.Code std .null subscript) ∨
      (bytes ≠ [] ∧ Subscript.Code std (.string bytes) subscript) := by
  rw [encodeString] at encoded
  split at encoded
  · cases encoded
  by_cases empty : bytes = []
  · rw [if_pos empty] at encoded
    obtain rfl := Except.ok.inj encoded
    exact .inl ⟨empty, .null⟩
  · rw [if_neg empty] at encoded
    generalize (key.top : Int) - (key.end_ + bytes.length + 3) = avail at encoded
    cases copied : escapeString avail bytes with
    | error e =>
      rw [copied] at encoded
      cases encoded
    | ok escaped =>
      rw [copied] at encoded
      obtain rfl := Except.ok.inj encoded
      rw [escapeString_eq copied]
      exact .inr ⟨empty, .string bytes empty⟩

/-- The key ends in its second delimiter, behind the given bytes. -/
structure GvKey.Terminated (key : GvKey) (bytes : List UInt8) : Prop where
  base : key.base = bytes ++ [KEY_DELIMITER]
  length : key.end_ = bytes.length

/-- Appending a subscript keeps the key terminated. -/
theorem appendSubscript_terminated {key key' : GvKey} {bytes subscript : List UInt8}
    (terminated : key.Terminated bytes) (appended : appendSubscript key subscript = .ok key') :
    key'.Terminated (bytes ++ (subscript ++ [KEY_DELIMITER])) ∧ key'.prev = key.end_ ∧
      key'.top = key.top := by
  rw [appendSubscript] at appended
  dsimp only at appended
  split at appended
  · cases appended
  · obtain rfl := Except.ok.inj appended
    refine ⟨⟨?_, ?_⟩, rfl, rfl⟩
    · simp [terminated.base, terminated.length]
    · simp only [List.length_append, terminated.length, List.length_singleton]
      omega

/-- What settling the type of a represented subscript leaves: a number with the
value, or the string itself. -/
theorem settleType_of_represents {env : SubscEnv} {v : Mval} {s : Subscript}
    (represents : v.Represents s) {settled : Mval × Bool}
    (result : settleType env v v.mvtype.numApprox = .ok settled) :
    (settled.2 = false ∧ (settled.1.IsInt ∨ settled.1.IsFloat) ∧
        s = .number settled.1.value) ∨
      (settled.2 = true ∧ settled.1.str = v.str ∧
        ((v.str = [] ∧ s = .null) ∨ (v.str ≠ [] ∧ s = .string v.str))) := by
  have ofText : v.IsText → ¬ CanonicalText v.str → settled.2 = true ∧ settled.1.str = v.str := by
    rintro (isString | ⟨approx, _⟩) notNumeral
    · have rejected : valIscan v = false := by
        rw [← Bool.not_eq_true, valIscan_iff isString]
        exact notNumeral
      simp only [settleType, isString.mvtype, and_self, if_true, rejected, Bool.false_eq_true,
        if_false] at result
      obtain rfl := Except.ok.inj result
      exact ⟨rfl, rfl⟩
    · rw [settleType, if_neg (by simp [approx]), approx] at result
      obtain rfl := Except.ok.inj result
      exact ⟨rfl, rfl⟩
  have ofNumeral : ∀ r, v.IsString → CanonicalText v.str → s2n env.tg v = .ok r →
      settled = (r.u, r.u.mvtype.numApprox) := by
    intro r isString numeral converted
    have accepted := (valIscan_iff isString).mpr numeral
    rw [settleType, if_pos (by simp [isString.mvtype]), if_pos accepted, converted] at result
    exact (Except.ok.inj result).symm
  cases represents with
  | number form exact notNull =>
    have nm : v.mvtype.nm = true := form.elim (·.nm) (·.nm)
    rw [settleType, if_neg (by simp [nm]), exact] at result
    obtain rfl := Except.ok.inj result
    exact .inl ⟨rfl, form, rfl⟩
  | zeroText isString text =>
    obtain ⟨r, converted, canonical, value, approx⟩ := s2n_of_zero env.tg isString text
    obtain rfl := ofNumeral r isString (.inl text) converted
    exact .inl ⟨approx, canonical.imp_right And.left, by rw [value]⟩
  | numeral isString d inRange text =>
    obtain ⟨r, converted, canonical, value, approx⟩ := s2n_of_text env.tg isString d inRange text
    obtain rfl := ofNumeral r isString (.inr ⟨d, inRange, text⟩) converted
    exact .inl ⟨approx, canonical.imp_right And.left, by rw [value]⟩
  | null isText empty =>
    obtain ⟨isString, same⟩ := ofText isText (by rw [empty]; exact not_canonicalText_nil)
    exact .inr ⟨isString, same, .inl ⟨empty, rfl⟩⟩
  | string isText some notNumeral =>
    obtain ⟨isString, same⟩ := ofText isText notNumeral
    exact .inr ⟨isString, same, .inr ⟨some, rfl⟩⟩

theorem Mval.Represents.notNull {v : Mval} {s : Subscript} (represents : v.Represents s) :
    v.mvtype.sqlnull = false := by
  have ofText : v.IsText → v.mvtype.sqlnull = false := by
    rintro (isString | ⟨_, notNull⟩)
    · rw [isString.mvtype]
    · exact notNull
  cases represents with
  | number _ _ notNull => exact notNull
  | zeroText isString _ => exact ofText (.inl isString)
  | numeral isString _ _ _ => exact ofText (.inl isString)
  | null isText _ => exact ofText isText
  | string isText _ _ => exact ofText isText

/-- The steps of a successful call. -/
theorem mval2subsc_steps {env : SubscEnv} {v v' : Mval} {key key' : GvKey} {std : Bool}
    (plain : env.Plain) (notNull : v.mvtype.sqlnull = false)
    (done : mval2subsc env v key std = .ok (v', key')) :
    ∃ settled subscript, settleType env v v.mvtype.numApprox = .ok settled ∧
      subscriptBytes env settled.1 settled.2 key std = .ok subscript ∧
      appendSubscript key subscript = .ok key' := by
  simp only [mval2subsc, plain.nct, Bool.and_false, Bool.false_eq_true, if_false, Bool.false_or,
    notNull] at done
  cases settledEq : settleType env v v.mvtype.numApprox with
  | error e =>
    rw [settledEq] at done
    cases done
  | ok settled =>
    rw [settledEq] at done
    change (do
      let subscript ← subscriptBytes env settled.1 settled.2 key std
      let key ← appendSubscript key subscript
      return (settled.1, key)) = _ at done
    cases bytesEq : subscriptBytes env settled.1 settled.2 key std with
    | error e =>
      rw [bytesEq] at done
      cases done
    | ok subscript =>
      rw [bytesEq] at done
      cases appended : appendSubscript key subscript with
      | error e =>
        change (do
          let key ← appendSubscript key subscript
          return (settled.1, key)) = _ at done
        rw [appended] at done
        cases done
      | ok result =>
        change (do
          let key ← appendSubscript key subscript
          return (settled.1, key)) = _ at done
        rw [appended] at done
        have same := Except.ok.inj done
        refine ⟨settled, subscript, rfl, bytesEq, ?_⟩
        rw [appended, (Prod.mk.inj same).2]

/-- One call writes the code of the subscript and its delimiter. -/
theorem mval2subsc_code {env : SubscEnv} {v v' : Mval} {key key' : GvKey} {std : Bool}
    {s : Subscript} {bytes : List UInt8} (plain : env.Plain) (represents : v.Represents s)
    (terminated : key.Terminated bytes) (done : mval2subsc env v key std = .ok (v', key')) :
    ∃ code, Subscript.Code std s code ∧ key'.Terminated (bytes ++ (code ++ [KEY_DELIMITER])) := by
  obtain ⟨settled, subscript, settledEq, bytesEq, appended⟩ :=
    mval2subsc_steps plain represents.notNull done
  refine ⟨subscript, ?_, (appendSubscript_terminated terminated appended).1⟩
  rcases settleType_of_represents represents settledEq with
    ⟨isNumber, form, rfl⟩ | ⟨isString, same, kind⟩
  · rw [subscriptBytes, isNumber, if_neg (by decide)] at bytesEq
    obtain rfl := Except.ok.inj bytesEq
    exact encodeNumber_code std form
  · rw [subscriptBytes, isString, if_pos rfl, plain.collseq, same] at bytesEq
    rcases encodeString_code (show encodeString key std v.str = .ok subscript from bytesEq) with
      ⟨empty, code⟩ | ⟨some, code⟩
    · rcases kind with ⟨_, rfl⟩ | ⟨nonempty, _⟩
      · exact code
      · exact absurd empty nonempty
    · rcases kind with ⟨empty, _⟩ | ⟨_, rfl⟩
      · exact absurd empty some
      · exact code

/-! ## Whole keys -/

/-- Append each of the subscripts. -/
def putSubscripts (env : SubscEnv) (std_null_coll : Bool) (key : GvKey) :
    List Mval → Except RtsError GvKey
  | [] => .ok key
  | v :: rest => do
    let (_, key) ← mval2subsc env v key std_null_coll
    putSubscripts env std_null_coll key rest

theorem putSubscripts_cons {env : SubscEnv} {std : Bool} {key result : GvKey} {v : Mval}
    {rest : List Mval} (built : putSubscripts env std key (v :: rest) = .ok result) :
    ∃ v' key', mval2subsc env v key std = .ok (v', key') ∧
      putSubscripts env std key' rest = .ok result := by
  rw [putSubscripts] at built
  cases step : mval2subsc env v key std with
  | error e =>
    rw [step] at built
    cases built
  | ok next =>
    rw [step] at built
    exact ⟨next.1, next.2, rfl, built⟩

/-- A built key holds the codes of its subscripts in order. -/
theorem putSubscripts_bytes {env : SubscEnv} {std : Bool} (plain : env.Plain) {vs : List Mval}
    {ss : List Subscript} (represents : List.Forall₂ Mval.Represents vs ss) {key result : GvKey}
    {bytes : List UInt8} (terminated : key.Terminated bytes)
    (built : putSubscripts env std key vs = .ok result) :
    ∃ codes, List.Forall₂ (Subscript.Code std) ss codes ∧
      result.Terminated (bytes ++ keyBytes codes) := by
  induction represents generalizing key bytes with
  | nil =>
    obtain rfl := Except.ok.inj built
    exact ⟨[], .nil, by simpa [keyBytes] using terminated⟩
  | @cons v s vs ss first rest ih =>
    obtain ⟨v', key', step, behind⟩ := putSubscripts_cons built
    obtain ⟨code, coded, next⟩ := mval2subsc_code plain first terminated step
    obtain ⟨codes, allCoded, final⟩ := ih next behind
    refine ⟨code :: codes, .cons coded allCoded, ?_⟩
    rwa [keyBytes, List.flatMap_cons, ← List.append_assoc]

/-- Keys of one global compare bytewise as their lists of subscripts collate, and
are equal exactly when the lists are. -/
theorem keys_collate {env : SubscEnv} (plain : env.Plain) (std_null_coll : Bool)
    {xs ys : List Mval} {ss ts : List Subscript} (left : List.Forall₂ Mval.Represents xs ss)
    (right : List.Forall₂ Mval.Represents ys ts) {key k₁ k₂ : GvKey} {bytes : List UInt8}
    (terminated : key.Terminated bytes) (first : putSubscripts env std_null_coll key xs = .ok k₁)
    (second : putSubscripts env std_null_coll key ys = .ok k₂) :
    compare k₁.base k₂.base = Subscript.collateLists std_null_coll ss ts ∧
      (k₁.base = k₂.base ↔ ss = ts) := by
  obtain ⟨codes, coded, firstEnds⟩ := putSubscripts_bytes plain left terminated first
  obtain ⟨others, otherCoded, secondEnds⟩ := putSubscripts_bytes plain right terminated second
  have order : compare k₁.base k₂.base = Subscript.collateLists std_null_coll ss ts := by
    rw [firstEnds.base, secondEnds.base, List.append_assoc, List.append_assoc,
      compare_append_left]
    exact compare_keyBytes std_null_coll coded otherCoded
  refine ⟨order, ?_⟩
  rw [← Subscript.collateLists_eq_iff std_null_coll, ← order]
  exact Std.LawfulEqOrd.compare_eq_iff_eq.symm

/-- The number one and the string `a` below a global named `x`. -/
theorem keys_collate_one_before_letter :
    compare ([0x78, 0, 0xbf, 0x11, 0, 0] : List UInt8) [0x78, 0, 0xff, 0x61, 0, 0] = .lt := by
  let one : Mval := ⟨⟨true, true, false, false, false⟩, false, 0, 0, 1000, []⟩
  let letter : Mval := ⟨⟨false, false, true, false, false⟩, false, 0, 0, 0, [0x61]⟩
  let env : SubscEnv := ⟨⟨false, false⟩, true, ⟨false, none⟩⟩
  have isNumber : one.Represents (.number one.value) :=
    .number (.inl ⟨rfl, rfl, by decide⟩) rfl rfl
  have isString : letter.Represents (.string letter.str) :=
    .string (.inl ⟨rfl⟩) (by decide) (by rw [← valIscanText_iff]; decide)
  let key : GvKey := ⟨1052, 2, 0, [0x78, 0, 0]⟩
  have first : putSubscripts env true key [one] =
      .ok ⟨1052, 5, 2, [0x78, 0, 0xbf, 0x11, 0, 0]⟩ := by decide +kernel
  have second : putSubscripts env true key [letter] =
      .ok ⟨1052, 5, 2, [0x78, 0, 0xff, 0x61, 0, 0]⟩ := by decide +kernel
  have terminated : key.Terminated [0x78, 0] := ⟨rfl, rfl⟩
  have collated := keys_collate ⟨rfl, rfl⟩ true (.cons isNumber .nil) (.cons isString .nil)
    terminated first second
  exact collated.1

end Ydb
