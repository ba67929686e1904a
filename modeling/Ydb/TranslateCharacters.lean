import Ydb.TranslateTables

/-!
# Characters

A well-formed character is read back from its bytes whatever stands behind it, and its code point tells
its bytes. A text of well-formed characters has as many characters as it was made of.
-/

namespace Ydb.Translate

open Lib

/-- The bytes of a well-formed character. -/
def IsChar (c : List UInt8) : Prop := ∃ code, UTF8_MBTOWC c = (some code, c.length)

theorem trailing_iff (x : UInt8) : UTF8_IS_VALID_TRAILING x = true ↔ x.toNat / 64 = 2 := by
  have all : ∀ i : Fin 256, UTF8_IS_VALID_TRAILING (UInt8.ofNat i.val) = true ↔ i.val / 64 = 2 := by
    decide +kernel
  have here := all ⟨x.toNat, x.toNat_lt⟩
  rwa [UInt8.ofNat_toNat] at here

/-- The shapes of a character with its code point. -/
inductive Shape : List UInt8 → Nat → Prop
  | one {b₀ : UInt8} (first : b₀.toNat ≤ 0x7f) : Shape [b₀] b₀.toNat
  | two {b₀ b₁ : UInt8} (first : 0xc2 ≤ b₀.toNat ∧ b₀.toNat < 0xe0) (second : b₁.toNat / 64 = 2) :
      Shape [b₀, b₁] (b₀.toNat % 32 * 64 + b₁.toNat % 64)
  | three {b₀ b₁ b₂ : UInt8} (first : 0xe0 ≤ b₀.toNat ∧ b₀.toNat < 0xf0) (second : b₁.toNat / 64 = 2)
      (third : b₂.toNat / 64 = 2) (least : b₀.toNat = 0xe0 → 0xa0 ≤ b₁.toNat) :
      Shape [b₀, b₁, b₂] ((b₀.toNat % 16 * 64 + b₁.toNat % 64) * 64 + b₂.toNat % 64)
  | four {b₀ b₁ b₂ b₃ : UInt8} (first : 0xf0 ≤ b₀.toNat ∧ b₀.toNat < 0xf5) (second : b₁.toNat / 64 = 2)
      (third : b₂.toNat / 64 = 2) (fourth : b₃.toNat / 64 = 2)
      (least : b₀.toNat = 0xf0 → 0x90 ≤ b₁.toNat) :
      Shape [b₀, b₁, b₂, b₃]
        (((b₀.toNat % 8 * 64 + b₁.toNat % 64) * 64 + b₂.toNat % 64) * 64 + b₃.toNat % 64)

theorem bytelen_cases (b₀ : UInt8) :
    (utf8_bytelen b₀ = 1) ∨ (utf8_bytelen b₀ = 2 ∧ 0xc2 ≤ b₀.toNat ∧ b₀.toNat < 0xe0) ∨
      (utf8_bytelen b₀ = 3 ∧ 0xe0 ≤ b₀.toNat ∧ b₀.toNat < 0xf0) ∨
      (utf8_bytelen b₀ = 4 ∧ 0xf0 ≤ b₀.toNat ∧ b₀.toNat < 0xf5) := by
  have all : ∀ i : Fin 256, utf8_bytelen (UInt8.ofNat i.val) = 1 ∨
      (utf8_bytelen (UInt8.ofNat i.val) = 2 ∧ 0xc2 ≤ i.val ∧ i.val < 0xe0) ∨
      (utf8_bytelen (UInt8.ofNat i.val) = 3 ∧ 0xe0 ≤ i.val ∧ i.val < 0xf0) ∨
      (utf8_bytelen (UInt8.ofNat i.val) = 4 ∧ 0xf0 ≤ i.val ∧ i.val < 0xf5) := by
    decide +kernel
  have here := all ⟨b₀.toNat, b₀.toNat_lt⟩
  rwa [UInt8.ofNat_toNat] at here

theorem mbtowc_one {b₀ : UInt8} (first : b₀.toNat ≤ 0x7f) (rest : List UInt8) :
    UTF8_MBTOWC (b₀ :: rest) = (some b₀.toNat, 1) := by
  have ascii : b₀ ≤ 0x7f := UInt8.le_iff_toNat_le.mpr first
  rw [UTF8_MBTOWC, if_pos ascii]

theorem mbtowc_two {b₀ : UInt8} (first : 0xc2 ≤ b₀.toNat) (bytelen : utf8_bytelen b₀ = 2)
    (rest : List UInt8) : UTF8_MBTOWC (b₀ :: rest) = UTF8_MBTOWC_2BYTE b₀ rest := by
  have high : ¬ b₀ ≤ 0x7f := fun ascii => absurd (UInt8.le_iff_toNat_le.mp ascii) (by
    have bound : (0x7f : UInt8).toNat = 127 := rfl
    omega)
  rw [UTF8_MBTOWC, if_neg high, bytelen, if_neg (by decide), if_pos rfl]

theorem mbtowc_three {b₀ : UInt8} (first : 0xc2 ≤ b₀.toNat) (bytelen : utf8_bytelen b₀ = 3)
    (rest : List UInt8) : UTF8_MBTOWC (b₀ :: rest) = UTF8_MBTOWC_3BYTE b₀ rest := by
  have high : ¬ b₀ ≤ 0x7f := fun ascii => absurd (UInt8.le_iff_toNat_le.mp ascii) (by
    have bound : (0x7f : UInt8).toNat = 127 := rfl
    omega)
  rw [UTF8_MBTOWC, if_neg high, bytelen, if_neg (by decide), if_neg (by decide), if_pos rfl]

theorem mbtowc_four {b₀ : UInt8} (first : 0xc2 ≤ b₀.toNat) (bytelen : utf8_bytelen b₀ = 4)
    (rest : List UInt8) : UTF8_MBTOWC (b₀ :: rest) = UTF8_MBTOWC_4BYTE b₀ rest := by
  have high : ¬ b₀ ≤ 0x7f := fun ascii => absurd (UInt8.le_iff_toNat_le.mp ascii) (by
    have bound : (0x7f : UInt8).toNat = 127 := rfl
    omega)
  rw [UTF8_MBTOWC, if_neg high, bytelen, if_neg (by decide), if_neg (by decide), if_neg (by decide)]

/-- A code point is read from one of the shapes. -/
theorem shape_of_some {str : List UInt8} {code bytes : Nat} (read : UTF8_MBTOWC str = (some code, bytes)) :
    bytes ≤ str.length ∧ Shape (str.take bytes) code ∧ ∀ rest, UTF8_MBTOWC (str.take bytes ++ rest) =
      (some code, bytes) := by
  cases str with
  | nil => cases read
  | cons b₀ rest =>
    by_cases first : b₀.toNat ≤ 0x7f
    · rw [mbtowc_one first] at read
      cases read
      exact ⟨by simp, .one first, fun rest => mbtowc_one first rest⟩
    · rcases bytelen_cases b₀ with one | ⟨two, range⟩ | ⟨three, range⟩ | ⟨four, range⟩
      · have high : ¬ b₀ ≤ 0x7f := fun ascii => first (UInt8.le_iff_toNat_le.mp ascii)
        rw [UTF8_MBTOWC, if_neg high, if_pos one] at read
        cases read
      · rw [mbtowc_two range.1 two] at read
        cases rest with
        | nil => cases read
        | cons b₁ rest =>
          rw [UTF8_MBTOWC_2BYTE] at read
          by_cases valid : UTF8_IS_VALID_TRAILING b₁ = true
          · rw [if_pos valid] at read
            cases read
            refine ⟨by simp, .two range ((trailing_iff b₁).mp valid), ?_⟩
            intro rest
            exact (mbtowc_two range.1 two _).trans (if_pos valid)
          · rw [if_neg valid] at read
            cases read
      · rw [mbtowc_three (by omega) three] at read
        cases rest with
        | nil => cases read
        | cons b₁ rest =>
          cases rest with
          | nil => cases read
          | cons b₂ rest =>
            rw [UTF8_MBTOWC_3BYTE] at read
            split at read
            · rename_i valid
              cases read
              have again : ∀ rest, UTF8_MBTOWC (b₀ :: b₁ :: b₂ :: rest) =
                  (some ((b₀.toNat % 16 * 64 + b₁.toNat % 64) * 64 + b₂.toNat % 64), 3) := by
                intro rest
                exact (mbtowc_three (by omega) three _).trans (if_pos valid)
              simp only [Bool.and_eq_true, Bool.or_eq_true, decide_eq_true_eq] at valid
              obtain ⟨⟨⟨⟨second, third⟩, least⟩, _⟩, _⟩ := valid
              refine ⟨by simp, .three range ((trailing_iff b₁).mp second) ((trailing_iff b₂).mp third)
                ?_, again⟩
              intro same
              rcases least with different | enough
              · exact absurd (UInt8.toNat_inj.mp same) different
              · exact UInt8.le_iff_toNat_le.mp enough
            · cases read
      · rw [mbtowc_four (by omega) four] at read
        cases rest with
        | nil => cases read
        | cons b₁ rest =>
          cases rest with
          | nil => cases read
          | cons b₂ rest =>
            cases rest with
            | nil => cases read
            | cons b₃ rest =>
              rw [UTF8_MBTOWC_4BYTE] at read
              split at read
              · rename_i valid
                cases read
                have again : ∀ rest, UTF8_MBTOWC (b₀ :: b₁ :: b₂ :: b₃ :: rest) =
                    (some (((b₀.toNat % 8 * 64 + b₁.toNat % 64) * 64 + b₂.toNat % 64) * 64 +
                      b₃.toNat % 64), 4) := by
                  intro rest
                  exact (mbtowc_four (by omega) four _).trans (if_pos valid)
                simp only [Bool.and_eq_true, Bool.or_eq_true, decide_eq_true_eq] at valid
                obtain ⟨⟨⟨⟨⟨second, third⟩, fourth⟩, least⟩, _⟩, _⟩ := valid
                refine ⟨by simp, .four range ((trailing_iff b₁).mp second)
                  ((trailing_iff b₂).mp third) ((trailing_iff b₃).mp fourth) ?_, again⟩
                intro same
                rcases least with different | enough
                · exact absurd (UInt8.toNat_inj.mp same) different
                · exact UInt8.le_iff_toNat_le.mp enough
              · cases read

theorem Shape.code_range {c : List UInt8} {code : Nat} (shape : Shape c code) :
    (c.length = 1 ∧ code < 0x80) ∨ (c.length = 2 ∧ 0x80 ≤ code ∧ code < 0x800) ∨
      (c.length = 3 ∧ 0x800 ≤ code ∧ code < 0x10000) ∨ (c.length = 4 ∧ 0x10000 ≤ code) := by
  cases shape with
  | one first => exact .inl ⟨rfl, by omega⟩
  | two first second => exact .inr (.inl ⟨rfl, by omega, by omega⟩)
  | three first second third least => exact .inr (.inr (.inl ⟨rfl, by omega, by omega⟩))
  | four first second third fourth least => exact .inr (.inr (.inr ⟨rfl, by omega⟩))

/-- The code point tells the bytes. -/
theorem Shape.injective {c d : List UInt8} {code code' : Nat} (left : Shape c code)
    (right : Shape d code') (same : code = code') : c = d := by
  have ranges := left.code_range
  have ranges' := right.code_range
  have eq : ∀ {a b : UInt8}, a.toNat = b.toNat → a = b := UInt8.toNat_inj.mp
  cases left with
  | one first =>
    cases right with
    | one first' => rw [eq same]
    | two | three | four => simp at ranges ranges'; omega
  | @two a₀ a₁ first second =>
    cases right with
    | @two b₀ b₁ first' second' =>
      have equal₀ : a₀ = b₀ := eq (by omega)
      have equal₁ : a₁ = b₁ := eq (by omega)
      rw [equal₀, equal₁]
    | one | three | four => simp at ranges ranges'; omega
  | @three a₀ a₁ a₂ first second third least =>
    cases right with
    | @three b₀ b₁ b₂ first' second' third' least' =>
      have equal₀ : a₀ = b₀ := eq (by omega)
      have equal₁ : a₁ = b₁ := eq (by omega)
      have equal₂ : a₂ = b₂ := eq (by omega)
      rw [equal₀, equal₁, equal₂]
    | one | two | four => simp at ranges ranges'; omega
  | @four a₀ a₁ a₂ a₃ first second third fourth least =>
    cases right with
    | @four b₀ b₁ b₂ b₃ first' second' third' fourth' least' =>
      have equal₀ : a₀ = b₀ := eq (by omega)
      have equal₁ : a₁ = b₁ := eq (by omega)
      have equal₂ : a₂ = b₂ := eq (by omega)
      have equal₃ : a₃ = b₃ := eq (by omega)
      rw [equal₀, equal₁, equal₂, equal₃]
    | one | two | three => simp at ranges ranges'; omega

/-! ## Characters of a text -/

theorem IsChar.shape {c : List UInt8} {code : Nat} (read : UTF8_MBTOWC c = (some code, c.length)) :
    Shape c code := by
  have shape := (shape_of_some read).2.1
  rwa [List.take_length] at shape

/-- A character is read whatever stands behind it. -/
theorem IsChar.read {c : List UInt8} {code : Nat} (read : UTF8_MBTOWC c = (some code, c.length))
    (rest : List UInt8) : UTF8_MBTOWC (c ++ rest) = (some code, c.length) := by
  have again := (shape_of_some read).2.2 rest
  rwa [List.take_length] at again

theorem IsChar.pos {c : List UInt8} (char : IsChar c) : 0 < c.length := by
  obtain ⟨code, read⟩ := char
  rcases (IsChar.shape read).code_range with ⟨size, _⟩ | ⟨size, _⟩ | ⟨size, _⟩ | ⟨size, _⟩ <;> omega

theorem IsChar.ne_nil {c : List UInt8} (char : IsChar c) : c ≠ [] := List.length_pos_iff.mp char.pos

/-- The code point tells the character. -/
theorem IsChar.eq {c d : List UInt8} {code : Nat} (left : UTF8_MBTOWC c = (some code, c.length))
    (right : UTF8_MBTOWC d = (some code, d.length)) : c = d :=
  (IsChar.shape left).injective (IsChar.shape right) rfl

/-- What is decoded are the bytes read. -/
theorem mbtowc_bytes (str : List UInt8) : 0 < (UTF8_MBTOWC str).2 := by
  have two : ∀ b₀ rest, 0 < (UTF8_MBTOWC_2BYTE b₀ rest).2 := by
    intro b₀ rest
    unfold UTF8_MBTOWC_2BYTE
    split
    · split <;> exact Nat.succ_pos _
    · exact Nat.one_pos
  have three : ∀ b₀ rest, 0 < (UTF8_MBTOWC_3BYTE b₀ rest).2 := by
    intro b₀ rest
    unfold UTF8_MBTOWC_3BYTE
    split
    · split <;> exact Nat.succ_pos _
    · exact Nat.one_pos
  have four : ∀ b₀ rest, 0 < (UTF8_MBTOWC_4BYTE b₀ rest).2 := by
    intro b₀ rest
    unfold UTF8_MBTOWC_4BYTE
    split
    · split <;> exact Nat.succ_pos _
    · exact Nat.one_pos
  cases str with
  | nil => exact Nat.one_pos
  | cons b₀ rest =>
    rw [UTF8_MBTOWC]
    split
    · exact Nat.one_pos
    · split
      · exact Nat.one_pos
      · split
        · exact two b₀ rest
        · split
          · exact three b₀ rest
          · exact four b₀ rest

/-- The characters of a text; a malformed byte is one of its own. -/
def splitChars : Nat → List UInt8 → List (List UInt8)
  | 0, _ => []
  | _ + 1, [] => []
  | rounds + 1, ch :: str =>
    (ch :: str).take (UTF8_MBTOWC (ch :: str)).2 ::
      splitChars rounds ((ch :: str).drop (UTF8_MBTOWC (ch :: str)).2)

/-- The characters of a string. -/
def chars (str : List UInt8) : List (List UInt8) := splitChars str.length str

/-- A string split into its characters. -/
theorem splitChars_spec {rounds : Nat} {str : List UInt8} (enough : str.length ≤ rounds) :
    (splitChars rounds str).flatten = str ∧ (splitChars rounds str).length = countChars rounds str ∧
      (validChars rounds str = true → ∀ c ∈ splitChars rounds str, IsChar c) := by
  induction rounds generalizing str with
  | zero =>
    obtain rfl : str = [] := List.eq_nil_of_length_eq_zero (Nat.le_zero.mp enough)
    exact ⟨rfl, rfl, fun _ c member => absurd member List.not_mem_nil⟩
  | succ rounds ih =>
    cases str with
    | nil => exact ⟨rfl, rfl, fun _ c member => absurd member List.not_mem_nil⟩
    | cons ch str =>
      have positive := mbtowc_bytes (ch :: str)
      have shorter : ((ch :: str).drop (UTF8_MBTOWC (ch :: str)).2).length ≤ rounds := by
        rw [List.length_drop]
        omega
      obtain ⟨flatten, length, valid⟩ := ih shorter
      rw [splitChars, countChars, validChars]
      · refine ⟨?_, ?_, ?_⟩
        · rw [List.flatten_cons, flatten, List.take_append_drop]
        · rw [List.length_cons, length]
        · intro all
          obtain ⟨here, behind⟩ := Bool.and_eq_true_iff.mp all
          obtain ⟨code, read⟩ := Option.isSome_iff_exists.mp here
          have whole : UTF8_MBTOWC (ch :: str) = (some code, (UTF8_MBTOWC (ch :: str)).2) :=
            Prod.ext read rfl
          have again := (shape_of_some whole).2.2 []
          rw [List.append_nil] at again
          refine List.forall_mem_cons.mpr ⟨⟨code, ?_⟩, valid behind⟩
          rw [again, List.length_take_of_le (shape_of_some whole).1]
      · exact List.cons_ne_nil _ _
      · exact List.cons_ne_nil _ _

theorem flatten_chars (str : List UInt8) : (chars str).flatten = str :=
  (splitChars_spec (Nat.le_refl _)).1

theorem length_chars (str : List UInt8) : (chars str).length = utf8_len str :=
  (splitChars_spec (Nat.le_refl _)).2.1

theorem isChar_of_valid {str : List UInt8} (valid : valid_utf_string str = true) :
    ∀ c ∈ chars str, IsChar c :=
  (splitChars_spec (Nat.le_refl _)).2.2 valid

/-- Where there are as many characters as bytes, every character is a byte. -/
theorem single_of_length {cs : List (List UInt8)} (positive : ∀ c ∈ cs, 0 < c.length)
    (same : cs.flatten.length = cs.length) : ∀ c ∈ cs, c.length = 1 := by
  induction cs with
  | nil => exact fun c member => absurd member List.not_mem_nil
  | cons d cs ih =>
    obtain ⟨here, behind⟩ := List.forall_mem_cons.mp positive
    rw [List.flatten_cons, List.length_append, List.length_cons] at same
    have atLeast : ∀ (cs : List (List UInt8)), (∀ c ∈ cs, 0 < c.length) →
        cs.length ≤ cs.flatten.length := by
      intro cs positive
      induction cs with
      | nil => exact Nat.le_refl _
      | cons e cs ih =>
        obtain ⟨first, others⟩ := List.forall_mem_cons.mp positive
        have least := ih others
        rw [List.flatten_cons, List.length_append, List.length_cons]
        omega
    have least := atLeast cs behind
    refine List.forall_mem_cons.mpr ⟨by omega, ih behind (by omega)⟩

end Ydb.Translate
