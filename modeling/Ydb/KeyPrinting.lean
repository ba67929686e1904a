import Mathlib.Data.List.Forall2
import Ydb.KeyText

/-!
# The text of a key

A key consists of the codes of its subscripts, and none of these contains a
delimiter. Its text therefore lists the subscripts in order: numbers as their
canonical text, strings in quotes with the quotes inside doubled.
-/

namespace Ydb

open Lib

/-! ## Codes contain no delimiter -/

theorem Decimal.code_nonzero (d : Decimal) (inRange : d.InRange) : ∀ ch ∈ d.code, ch ≠ 0 := by
  obtain ⟨first, rest, code, value⟩ := d.magnitudeCode_head inRange
  have pairs : rest = d.pairs.map (pos_code.getD · 0) := by
    rw [Decimal.magnitudeCode] at code
    exact (List.cons.inj code).2.symm
  obtain ⟨low, high⟩ := inRange
  have ofNat : ∀ (ch : UInt8), ch.toNat ≠ 0 → ch ≠ 0 := by
    rintro ch nonzero rfl
    exact nonzero rfl
  intro ch member
  rw [Decimal.code, code, pairs] at member
  cases sign : d.neg
  · simp only [sign, Bool.false_eq_true, if_false, List.mem_cons, List.mem_map] at member
    rcases member with rfl | ⟨p, inside, rfl⟩
    · exact ofNat _ (by omega)
    · exact pairTable_dpos.nonzero p (d.pairs_lt p inside)
  · simp only [sign, if_true, List.mem_map, List.mem_append, List.mem_cons, List.not_mem_nil,
      or_false] at member
    rcases member with ⟨byte, (rfl | ⟨p, inside, rfl⟩) | rfl, rfl⟩
    · have complement : (~~~ byte).toNat = 255 - byte.toNat := UInt8.toNat_not byte
      exact ofNat _ (by omega)
    · exact pairTable_dneg.nonzero p (d.pairs_lt p inside)
    · decide

theorem escape_nonzero (bytes : List UInt8) : ∀ ch ∈ escape bytes, ch ≠ 0 := by
  intro ch member
  obtain ⟨byte, _, inside⟩ := List.mem_flatMap.mp member
  rw [escapeByte] at inside
  split at inside
  next low =>
    simp only [List.mem_cons, List.not_mem_nil, or_false] at inside
    rcases inside with rfl | rfl
    · decide
    · intro zero
      have small : byte.toNat ≤ 1 := UInt8.le_iff_toNat_le.mp low
      have sum := congrArg UInt8.toNat zero
      rw [UInt8.toNat_add] at sum
      simp at sum
      omega
  next high =>
    rw [List.mem_singleton] at inside
    rintro rfl
    rw [← inside] at high
    exact high (by decide)

theorem Subscript.Code.nonzero {std : Bool} {s : Subscript} {code : List UInt8}
    (coded : s.Code std code) : ∀ ch ∈ code, ch ≠ 0 := by
  cases coded with
  | null =>
    intro ch member
    rw [List.mem_singleton.mp member]
    cases std <;> decide
  | zero =>
    intro ch member
    rw [List.mem_singleton.mp member]
    decide
  | decimal d inRange => exact d.code_nonzero inRange
  | string bytes some =>
    intro ch member
    rcases List.mem_cons.mp member with rfl | member
    · decide
    · exact escape_nonzero bytes ch member

/-- Behind a code, the next subscript is the one behind its delimiter. -/
theorem nextSubscript_append {code : List UInt8} (nonzero : ∀ ch ∈ code, ch ≠ 0)
    (rest : List UInt8) : nextSubscript (code ++ 0 :: rest) = rest := by
  induction code with
  | nil => simp [nextSubscript]
  | cons ch code ih =>
    rw [List.cons_append, nextSubscript,
      if_pos ⟨nonzero ch List.mem_cons_self, by simp⟩]
    exact ih fun other member => nonzero other (List.mem_cons_of_mem ch member)

theorem formatName_append {name : List UInt8} (nonzero : ∀ ch ∈ name, ch ≠ 0)
    (rest : List UInt8) : formatName (name ++ 0 :: rest) = (name, rest) := by
  induction name with
  | nil => simp [formatName]
  | cons ch name ih =>
    rw [List.cons_append, formatName, if_pos ⟨nonzero ch List.mem_cons_self, by simp⟩,
      ih fun other member => nonzero other (List.mem_cons_of_mem ch member)]

/-! ## Printed subscripts -/

/-- A string with its quotes doubled. -/
def doubled (bytes : List UInt8) : List UInt8 :=
  bytes.flatMap fun ch => if ch = Ascii.quote then [Ascii.quote, Ascii.quote] else [ch]

theorem doubled_cons (ch : UInt8) (bytes : List UInt8) : doubled (ch :: bytes) =
    (if ch = Ascii.quote then [Ascii.quote, Ascii.quote] else [ch]) ++ doubled bytes := rfl

theorem doubled_length (bytes : List UInt8) : (doubled bytes).length ≤ 2 * bytes.length := by
  induction bytes with
  | nil => simp [doubled]
  | cons ch bytes ih =>
    rw [doubled_cons, List.length_append, List.length_cons]
    split <;> simp only [List.length_cons, List.length_nil] <;> omega

theorem length_le_doubled (bytes : List UInt8) : bytes.length ≤ (doubled bytes).length := by
  induction bytes with
  | nil => simp
  | cons ch bytes ih =>
    rw [doubled_cons, List.length_append, List.length_cons]
    split <;> simp only [List.length_cons, List.length_nil] <;> omega

/-- The text of a subscript inside a reference. -/
inductive Subscript.Printed : Subscript → List UInt8 → Prop
  | null : Printed .null [Ascii.quote, Ascii.quote]
  | zero : Printed (.number 0) [Ascii.zero]
  | decimal (d : Decimal) (inRange : d.InRange) : Printed (.number d.value) d.text
  | string (bytes : List UInt8) (some : bytes ≠ []) :
      Printed (.string bytes) (Ascii.quote :: (doubled bytes ++ [Ascii.quote]))

/-- The texts of the subscripts between the parentheses, with the closing one. -/
def listText : List (List UInt8) → List UInt8
  | [] => []
  | [item] => item ++ [Ascii.close_paren]
  | item :: rest => item ++ Ascii.comma :: listText rest

theorem listText_cons_cons (item next : List UInt8) (rest : List (List UInt8)) :
    listText (item :: next :: rest) = item ++ Ascii.comma :: listText (next :: rest) := rfl

/-- The text of a reference. -/
def keyText (name : List UInt8) (items : List (List UInt8)) : List UInt8 :=
  Ascii.caret :: (name ++ if items = [] then [] else Ascii.open_paren :: listText items)

theorem copyOut_plain (out_top : Nat) (out bytes : List UInt8)
    (room : out.length + bytes.length ≤ out_top) :
    copyOut out_top false out bytes = some (out ++ bytes) := by
  induction bytes generalizing out with
  | nil => simp [copyOut]
  | cons ch bytes ih =>
    rw [List.length_cons] at room
    rw [copyOut, if_neg (by omega)]
    dsimp only
    rw [if_neg (by simp), ih _ (by
      rw [List.length_append, List.length_singleton]; omega), List.append_assoc]
    rfl

/-- Quotes in a string are doubled. -/
theorem copyOut_doubled (out_top : Nat) (out bytes : List UInt8)
    (room : out.length + (doubled bytes).length ≤ out_top) :
    copyOut out_top true out bytes = some (out ++ doubled bytes) := by
  induction bytes generalizing out with
  | nil => simp [copyOut, doubled]
  | cons ch bytes ih =>
    rw [doubled_cons, List.length_append] at room
    rw [copyOut, doubled_cons]
    by_cases isQuote : ch = Ascii.quote
    · rw [if_pos isQuote] at room ⊢
      simp only [List.length_cons, List.length_nil] at room
      rw [if_neg (by omega)]
      dsimp only
      rw [if_pos ⟨rfl, isQuote⟩, if_neg (by
        rw [List.length_append, List.length_singleton]; omega), ih _ (by
        simp only [List.length_append, List.length_singleton]; omega), isQuote]
      simp
    · rw [if_neg isQuote] at room ⊢
      simp only [List.length_cons, List.length_nil] at room
      rw [if_neg (by omega)]
      dsimp only
      rw [if_neg (by simp [isQuote]), ih _ (by
        rw [List.length_append, List.length_singleton]; omega), List.append_assoc]

/-! ## The printer -/

section Printing

variable (isctl : UInt8 → Bool) {env : SubscEnv} (plain : env.Plain)

include plain in
/-- One code is printed as its subscript. -/
theorem formatSubscript_code {s : Subscript} {code item : List UInt8} (coded : s.Code true code)
    (printed : s.Printed item) (out_top : Nat) (out tail : List UInt8)
    (room : out.length + item.length ≤ out_top) (fits : item.length + 2 ≤ MAX_ZWR_KEY_SZ) :
    formatSubscript isctl env out_top false out (code ++ KEY_DELIMITER :: tail) =
      .ok (some (out ++ item)) := by
  have number : ∀ q, s = .number q → s.Text item →
      formatSubscript isctl env out_top false out (code ++ KEY_DELIMITER :: tail) =
        .ok (some (out ++ item)) := by
    intro q isNumber text
    subst isNumber
    obtain ⟨first, rest, head, low, high⟩ := coded.number_head
    have notNull : first ≠ SUBSCRIPT_STDCOL_NULL := by
      rintro rfl
      exact absurd low (by decide)
    have notString : first ≠ STR_SUB_PREFIX := by
      rintro rfl
      exact absurd high (by decide)
    have decoded := gvsub2str_code isctl plain coded text MAX_ZWR_KEY_SZ fits tail
    have copied := copyOut_plain out_top out item room
    rw [head, List.cons_append] at decoded ⊢
    rw [formatSubscript, List.getD_cons_zero, if_neg notNull, decoded]
    simp only [decide_eq_false notString, Bool.false_and, Bool.false_eq_true, if_false]
    change Except.ok (copyOut out_top false out item >>= some) = _
    rw [copied]
    rfl
  cases printed with
  | null =>
    cases coded
    rfl
  | zero => exact number 0 rfl .zero
  | decimal d inRange => exact number _ rfl (.decimal d inRange)
  | string bytes some =>
    have longer := length_le_doubled bytes
    simp only [List.length_cons, List.length_append, List.length_nil] at room fits
    have decoded := gvsub2str_code isctl plain coded (.string bytes some) MAX_ZWR_KEY_SZ
      (by omega) tail
    have copied := copyOut_doubled out_top (out ++ [Ascii.quote]) bytes (by
      rw [List.length_append, List.length_singleton]; omega)
    cases coded
    rw [List.cons_append] at decoded ⊢
    rw [formatSubscript, List.getD_cons_zero, if_neg (by decide), decoded]
    change Except.ok (copyOut out_top true (out ++ [Ascii.quote]) bytes >>= fun out =>
      if out.length ≥ out_top then none else Option.some (out ++ [Ascii.quote])) = _
    rw [copied]
    change Except.ok (if _ then _ else _) = _
    rw [if_neg (by simp only [List.length_append, List.length_singleton]; omega)]
    simp

include plain in
/-- The subscripts of a key are printed in order. -/
theorem formatSubscripts_codes {ss : List Subscript} {codes items : List (List UInt8)}
    (coded : List.Forall₂ (Subscript.Code true) ss codes)
    (printed : List.Forall₂ Subscript.Printed ss items) (some : ss ≠ []) (out_top turns : Nat)
    (enough : ss.length ≤ turns) (out : List UInt8)
    (room : out.length + (listText items).length ≤ out_top)
    (fits : ∀ item ∈ items, item.length + 2 ≤ MAX_ZWR_KEY_SZ) :
    formatSubscripts isctl env out_top false turns out (keyBytes codes ++ [KEY_DELIMITER]) =
      .ok (Option.some (out ++ listText items)) := by
  induction coded generalizing items turns out with
  | nil => exact absurd rfl some
  | @cons s code ss codes first rest ih =>
    cases printed with
    | @cons _ item _ items firstPrinted restPrinted =>
      obtain ⟨turns, rfl⟩ : ∃ n, turns = n + 1 :=
        ⟨turns - 1, by rw [List.length_cons] at enough; omega⟩
      rw [List.length_cons] at enough
      have split : keyBytes (code :: codes) ++ [KEY_DELIMITER] =
          code ++ KEY_DELIMITER :: (keyBytes codes ++ [KEY_DELIMITER]) := by
        simp [keyBytes]
      have itemRoom : out.length + item.length < out_top := by
        cases items <;> simp only [listText, List.length_append, List.length_cons] at room <;> omega
      have next := nextSubscript_append first.nonzero (keyBytes codes ++ [KEY_DELIMITER])
      rw [split, formatSubscripts, formatSubscript_code isctl plain first firstPrinted out_top out _
        (le_of_lt itemRoom) (fits item List.mem_cons_self)]
      change (if _ then _ else _ : Except RtsError (Option (List UInt8))) = _
      rw [next, if_neg (by
        rw [List.length_append]
        simp
        omega)]
      cases rest with
      | nil =>
        cases restPrinted
        simp [keyBytes, listText]
        rfl
      | @cons s' code' ss' codes' second others =>
        cases restPrinted with
        | @cons _ item' _ items' secondPrinted othersPrinted =>
          obtain ⟨ch, behind, head, positive⟩ := second.head
          have nonzero : (keyBytes (code' :: codes') ++ [KEY_DELIMITER]).getD 0 0 ≠ 0 := by
            rw [keyBytes, List.flatMap_cons, head]
            rintro rfl
            exact absurd positive (by decide)
          have step := ih (.cons secondPrinted othersPrinted) (by simp) turns
            (by omega) (out ++ item ++ [Ascii.comma])
            (by
              simp only [listText, List.length_append, List.length_cons, List.length_nil] at room ⊢
              omega)
            (fun other member => fits other (List.mem_cons_of_mem item member))
          rw [if_pos nonzero, step, listText_cons_cons, List.append_assoc, List.append_assoc]
          rfl

end Printing

/-! ## The size of the text -/

/-- The bytes of an internal key. -/
def gdsBytes (name : List UInt8) (codes : List (List UInt8)) : List UInt8 :=
  name ++ KEY_DELIMITER :: (keyBytes codes ++ [KEY_DELIMITER])

theorem keyBytes_length_cons (code : List UInt8) (codes : List (List UInt8)) :
    (keyBytes (code :: codes)).length = code.length + 1 + (keyBytes codes).length := by
  rw [keyBytes, List.flatMap_cons, List.length_append, List.length_append]
  rfl

theorem Decimal.text_length (d : Decimal) (inRange : d.InRange) : d.text.length ≤ 66 := by
  have short := d.significant_length
  obtain ⟨low, high⟩ := inRange
  have sign : (signText d.neg).length ≤ 1 := by cases d.neg <;> decide
  rcases d.text_shapes with ⟨n, exp, _, text⟩ | ⟨whole, fraction, _, split, _, _, text⟩ |
      ⟨n, exp, text⟩
  · rw [text]
    simp only [List.length_append, List.length_map, List.length_replicate]
    omega
  · rw [split, List.length_append] at short
    rw [text]
    simp only [List.length_append, List.length_map, List.length_cons]
    omega
  · rw [text]
    simp only [List.length_append, List.length_map, List.length_cons, List.length_replicate]
    omega

theorem escape_length (bytes : List UInt8) : bytes.length ≤ (escape bytes).length := by
  induction bytes with
  | nil => simp
  | cons ch bytes ih =>
    rw [escape, List.flatMap_cons, List.length_append, ← escape, List.length_cons, escapeByte]
    split <;> simp only [List.length_cons, List.length_nil] <;> omega

/-- A number has few digits, and a string at most doubles. -/
theorem Subscript.Printed.length_le {s : Subscript} {code item : List UInt8}
    (coded : s.Code true code) (printed : s.Printed item) :
    item.length ≤ 66 + 2 * code.length := by
  cases printed with
  | null =>
    simp only [List.length_cons, List.length_nil]
    omega
  | zero =>
    simp only [List.length_cons, List.length_nil]
    omega
  | decimal d inRange => exact Nat.le_add_right_of_le (d.text_length inRange)
  | string bytes some =>
    cases coded
    have := doubled_length bytes
    have := escape_length bytes
    simp only [List.length_cons, List.length_append, List.length_nil]
    omega

theorem listText_length {ss : List Subscript} {codes items : List (List UInt8)}
    (coded : List.Forall₂ (Subscript.Code true) ss codes)
    (printed : List.Forall₂ Subscript.Printed ss items) :
    (listText items).length ≤ 67 * ss.length + 2 * (keyBytes codes).length ∧
      ∀ item ∈ items, item.length ≤ 66 + 2 * (keyBytes codes).length := by
  induction coded generalizing items with
  | nil =>
    cases printed
    simp [listText]
  | @cons s code ss codes first rest ih =>
    cases printed with
    | @cons _ item _ items firstPrinted restPrinted =>
      obtain ⟨total, each⟩ := ih restPrinted
      have here := Subscript.Printed.length_le first firstPrinted
      rw [keyBytes_length_cons, List.length_cons]
      constructor
      · cases items with
        | nil =>
          simp only [listText, List.length_append, List.length_cons, List.length_nil]
          omega
        | cons next items =>
          rw [listText_cons_cons, List.length_append, List.length_cons]
          omega
      · intro other member
        rcases List.mem_cons.mp member with rfl | member
        · omega
        · have := each other member
          omega

theorem length_le_keyBytes (codes : List (List UInt8)) : codes.length ≤ (keyBytes codes).length := by
  induction codes with
  | nil => simp
  | cons code codes ih =>
    rw [keyBytes_length_cons, List.length_cons]
    omega

/-- An internal key ends in two delimiters. -/
theorem gdsBytes_ends (name : List UInt8) (codes : List (List UInt8)) :
    ∃ body, gdsBytes name codes = body ++ [KEY_DELIMITER, KEY_DELIMITER] := by
  rcases List.eq_nil_or_concat codes with rfl | ⟨before, last, rfl⟩
  · exact ⟨name, rfl⟩
  · refine ⟨name ++ KEY_DELIMITER :: (keyBytes before ++ last), ?_⟩
    simp [gdsBytes, keyBytes]

/-- A key is printed as its name and its subscripts. -/
theorem gds2gvn_keyText (isctl : UInt8 → Bool) (tg : ThreadGbl) {name : List UInt8}
    (nonzero : ∀ ch ∈ name, ch ≠ 0) {ss : List Subscript} {codes items : List (List UInt8)}
    (coded : List.Forall₂ (Subscript.Code true) ss codes)
    (printed : List.Forall₂ Subscript.Printed ss items) (few : ss.length ≤ MAX_GVSUBSCRIPTS)
    (small : (gdsBytes name codes).length ≤ MAX_KEY_SZ) :
    gds2gvn isctl tg none (gdsBytes name codes) = .ok (some (keyText name items)) := by
  have plain : (blankTarget tg none).Plain := ⟨rfl, rfl⟩
  obtain ⟨body, ends⟩ := gdsBytes_ends name codes
  have isKey : ¬ (DBKEYSIZE MAX_KEY_SZ < (gdsBytes name codes).length ∨
      (gdsBytes name codes).length < 2 ∨
      (gdsBytes name codes).getD ((gdsBytes name codes).length - 1) 0 ≠ KEY_DELIMITER ∨
      (gdsBytes name codes).getD ((gdsBytes name codes).length - 2) 0 ≠ KEY_DELIMITER) := by
    have top : MAX_KEY_SZ ≤ DBKEYSIZE MAX_KEY_SZ := by decide
    rw [not_or, not_or, not_or]
    refine ⟨by omega, ?_, ?_, ?_⟩
    · rw [ends, List.length_append]
      simp
    · simp [ends]
    · simp [ends]
  have bounds := listText_length coded printed
  have size : (gdsBytes name codes).length = name.length + 1 + ((keyBytes codes).length + 1) := by
    simp only [gdsBytes, List.length_append, List.length_cons, List.length_nil]
    omega
  simp only [MAX_GVSUBSCRIPTS] at few
  rw [MAX_KEY_SZ] at small
  have whole : (gdsBytes name codes).take ((gdsBytes name codes).length - 1 + 1) =
      name ++ 0 :: (keyBytes codes ++ [KEY_DELIMITER]) := by
    rw [List.take_of_length_le (by omega)]
    rfl
  rw [gds2gvn, if_neg isKey, format_targ_key]
  dsimp only
  rw [whole, formatName_append nonzero]
  dsimp only
  cases coded with
  | nil =>
    cases printed
    simp [keyText, keyBytes]
  | @cons s code ss codes first rest =>
    obtain ⟨ch, behind, head, positive⟩ := first.head
    have subscripts : (keyBytes (code :: codes) ++ [KEY_DELIMITER]).getD 0 0 ≠ 0 := by
      rw [keyBytes, List.flatMap_cons, head]
      rintro rfl
      exact absurd positive (by decide)
    have count := (List.Forall₂.cons first rest).length_eq
    have enough := length_le_keyBytes (code :: codes)
    have capacity : MAX_ZWR_KEY_SZ = 9218 := rfl
    have listed := formatSubscripts_codes isctl plain (.cons first rest) printed (by simp)
      (MAX_ZWR_KEY_SZ - 2) ((gdsBytes name (code :: codes)).length - 1 + 1) (by omega)
      (Ascii.caret :: name ++ [Ascii.open_paren])
      (by
        simp only [List.length_append, List.length_cons, List.length_nil]
        simp only [List.length_cons] at bounds few
        omega)
      (fun item member => by have := bounds.2 item member; omega)
    have some : items ≠ [] := by
      rintro rfl
      cases printed
    rw [if_neg subscripts, listed, keyText, if_neg some]
    simp

end Ydb
