import Ydb.KeyParsing
import Ydb.NameVerdict

/-!
# Names of variables

The text of a variable: a name, for a global with a caret and perhaps an environment,
and a list of subscripts. A subscript is a number in canonical form or a string
expression. The pieces that `parse_gv_name_and_subscripts` takes although they are
malformed stand beside the right ones: the grammar has both as parameters.
-/

namespace Ydb

open Lib

/-! ## Pieces -/

/-- The bytes that belong to the character of a first byte, beside it. -/
def followers (utf8_mode : Bool) (ch : UInt8) : Nat :=
  if utf8_mode = false ∨ ch < 0x80 then 0 else (utf8_followlen ch).toNat

/-- A quoted string behind its opening quote, character by character. -/
inductive NameQuoted (utf8_mode : Bool) : List UInt8 → Prop
  | close : NameQuoted utf8_mode [Ascii.quote]
  | doubled {w : List UInt8} (rest : NameQuoted utf8_mode w) :
      NameQuoted utf8_mode (Ascii.quote :: Ascii.quote :: w)
  | char {ch : UInt8} {more w : List UInt8} (plain : ch ≠ Ascii.quote)
      (width : more.length = followers utf8_mode ch) (rest : NameQuoted utf8_mode w) :
      NameQuoted utf8_mode (ch :: (more ++ w))

/-- Nothing but digits. -/
def AllDigits (w : List UInt8) : Prop := ∀ ch ∈ w, isDigit ch = true

/-- The names of the function behind the dollar sign. -/
inductive CharName : List UInt8 → Prop
  | c {c : UInt8} (isC : isLetter Ascii.upperC c = true) : CharName [c]
  | char {c h a r : UInt8} (isC : isLetter Ascii.upperC c = true)
      (isH : isLetter Ascii.upperH h = true) (isA : isLetter 0x41 a = true)
      (isR : isLetter 0x52 r = true) : CharName [c, h, a, r]
  | zch {z c h : UInt8} (isZ : isLetter Ascii.upperZ z = true) (isC : isLetter Ascii.upperC c = true)
      (isH : isLetter Ascii.upperH h = true) : CharName [z, c, h]
  | zchar {z c h a r : UInt8} (isZ : isLetter Ascii.upperZ z = true)
      (isC : isLetter Ascii.upperC c = true) (isH : isLetter Ascii.upperH h = true)
      (isA : isLetter 0x41 a = true) (isR : isLetter 0x52 r = true) : CharName [z, c, h, a, r]

/-- A name that passes for `CHAR`: any character other than an `H` between `C` and `R`. -/
inductive Misspelt : List UInt8 → Prop
  | mk {c x r : UInt8} (isC : isLetter Ascii.upperC c = true)
      (notH : isLetter Ascii.upperH x = false) (notParen : x ≠ Ascii.open_paren)
      (isR : isLetter 0x52 r = true) : Misspelt [c, x, r]

/-- Arguments behind the first, each with its comma. -/
inductive MoreArgs : List UInt8 → Prop
  | nil : MoreArgs []
  | cons {digits w : List UInt8} (some : digits ≠ []) (all : AllDigits digits)
      (rest : MoreArgs w) : MoreArgs (Ascii.comma :: (digits ++ w))

/-- The text of a call behind its dollar sign. -/
def callText (name first more : List UInt8) : List UInt8 :=
  name ++ Ascii.open_paren :: (first ++ (more ++ [Ascii.close_paren]))

/-- A call of `$CHAR` or `$ZCHAR` with numbers for arguments. -/
def IsCall (c : List UInt8) : Prop :=
  ∃ name first more, c = callText name first more ∧ CharName name ∧ AllDigits first ∧
    MoreArgs more ∧ first ≠ []

/-- What passes for a call: its first argument may be missing, its name misspelt. -/
def PassesCall (c : List UInt8) : Prop :=
  ∃ name first more, c = callText name first more ∧ (CharName name ∨ Misspelt name) ∧
    AllDigits first ∧ MoreArgs more

/-- The parts of a number: a sign, digits that do not start with a zero, and a point
with digits that do not end with one. -/
def NumberParts (sign whole fraction : List UInt8) : Prop :=
  (sign = [] ∨ sign = [Ascii.minus]) ∧ AllDigits whole ∧ whole.head? ≠ some Ascii.zero ∧
    (fraction = [] ∨ ∃ digits, fraction = Ascii.dot :: digits ∧ AllDigits digits ∧
      digits.getLast? ≠ some Ascii.zero)

/-- A number in canonical form, of any length. -/
def IsNumber (w : List UInt8) : Prop :=
  w = [Ascii.zero] ∨ ∃ sign whole fraction, w = sign ++ (whole ++ fraction) ∧
    NumberParts sign whole fraction ∧ whole ++ fraction ≠ [] ∧ fraction ≠ [Ascii.dot]

/-- What passes for a number: also a sign alone, and a number that ends with its
point. -/
def PassesNumber (w : List UInt8) : Prop :=
  w = [Ascii.zero] ∨ ∃ sign whole fraction, w = sign ++ (whole ++ fraction) ∧
    NumberParts sign whole fraction ∧ w ≠ []

/-! ## Expressions -/

section Grammar

variable (utf8_mode : Bool) (Joins : Bool → Bool → Prop) (Number Call : List UInt8 → Prop)

/-- A string expression: quoted strings and calls joined by underscores. The marks tell
whether it starts with a quoted string and whether it ends with a call, and `Joins`
which of the two kinds may follow each other. -/
inductive StringExpr : Bool → Bool → List UInt8 → Prop
  | quoted {w : List UInt8} (body : NameQuoted utf8_mode w) :
      StringExpr true false (Ascii.quote :: w)
  | call {c : List UInt8} (call : Call c) : StringExpr false true (Ascii.dollar :: c)
  | quotedJoin {w rest : List UInt8} {starts ends : Bool} (body : NameQuoted utf8_mode w)
      (joins : Joins true starts) (more : StringExpr starts ends rest) :
      StringExpr true ends (Ascii.quote :: (w ++ Ascii.underscore :: rest))
  | callJoin {c rest : List UInt8} {starts ends : Bool} (call : Call c)
      (joins : Joins false starts) (more : StringExpr starts ends rest) :
      StringExpr false ends (Ascii.dollar :: (c ++ Ascii.underscore :: rest))

/-- A subscript or a component of an environment. The mark tells whether the parser
notes its end in any case: it does so behind a zero and behind a call. -/
inductive Component : Bool → List UInt8 → Prop
  | zero : Component true [Ascii.zero]
  | number {w : List UInt8} (number : Number w) (nonzero : w ≠ [Ascii.zero]) : Component false w
  | expression {starts ends : Bool} {w : List UInt8}
      (expr : StringExpr utf8_mode Joins Call starts ends w) : Component ends w

end Grammar

/-- The character that opens an expression. -/
def opening (starts : Bool) : UInt8 := if starts then Ascii.quote else Ascii.dollar

theorem StringExpr.opened {utf8_mode : Bool} {Joins : Bool → Bool → Prop} {Call : List UInt8 → Prop}
    {starts ends : Bool} {w : List UInt8} (expr : StringExpr utf8_mode Joins Call starts ends w) :
    ∃ body, w = opening starts :: body := by
  cases expr with
  | quoted => exact ⟨_, rfl⟩
  | call => exact ⟨_, rfl⟩
  | quotedJoin => exact ⟨_, rfl⟩
  | callJoin => exact ⟨_, rfl⟩

/-- Two quoted strings do not follow each other. -/
def Alternates (first second : Bool) : Prop := ¬ (first = true ∧ second = true)

/-- The components that are right. -/
abbrev IsComponent (utf8_mode : Bool) : Bool → List UInt8 → Prop :=
  Component utf8_mode Alternates IsNumber IsCall

/-- The components that pass. -/
abbrev PassesComponent (utf8_mode : Bool) : Bool → List UInt8 → Prop :=
  Component utf8_mode Alternates PassesNumber PassesCall

end Ydb
