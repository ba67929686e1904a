import Ydb.KeyText
import Ydb.Lib.Translation

/-!
# Tables for translation

`$ZTRANSLATE` works on bytes with a table of 256 entries. `$TRANSLATE` in UTF-8 mode has such a table for
the characters of one byte, whose entries are places in the replacement string, and a hash table by code
point for the others. The hash table is taken as the map that tables of integers act as.
-/

namespace Ydb.Translate

open Lib

def NUM_CHARS : Nat := 256
def SIZEOF_int4 : Nat := 4
def NO_VALUE : Int := -1
def DELETE_VALUE : Int := -2
def MAXPOSINT4 : Int := 0x7fffffff
def MAX_STRLEN : Nat := 1024 * 1024

/-! ## Characters -/

/-- The length that a lead byte tells. -/
def utf8_bytelen (c : UInt8) : Nat :=
  if c < 0xc2 then 1 else if c < 0xe0 then 2 else if c < 0xf0 then 3 else if c < 0xf5 then 4 else 1

/-- Whether a byte can follow. -/
def UTF8_IS_VALID_TRAILING (x : UInt8) : Bool := x &&& 0xc0 = 0x80

/-- Noncharacters of three bytes. -/
def UTF8_NONCHAR_3BYTE (b₀ b₁ b₂ : UInt8) : Bool :=
  b₀ = 0xef && ((b₁ = 0xb7 && decide (b₂ - 0x90 < 32)) || (b₁ = 0xbf && b₂ &&& 0xbe = 0xbe))

/-- Noncharacters of four bytes. -/
def UTF8_NONCHAR_4BYTE (b₁ b₂ b₃ : UInt8) : Bool :=
  b₁ &&& 0x0f = 0x0f && b₂ = 0xbf && b₃ &&& 0xbe = 0xbe

/-- A character of two bytes from its second byte on. There is no code point, and one byte, where too
little is left or the bytes are malformed. -/
def UTF8_MBTOWC_2BYTE (b₀ : UInt8) : List UInt8 → Option Nat × Nat
  | b₁ :: _ =>
    if UTF8_IS_VALID_TRAILING b₁ then (some (b₀.toNat % 32 * 64 + b₁.toNat % 64), 2) else (none, 1)
  | [] => (none, 1)

/-- A character of three bytes. -/
def UTF8_MBTOWC_3BYTE (b₀ : UInt8) : List UInt8 → Option Nat × Nat
  | b₁ :: b₂ :: _ =>
    if UTF8_IS_VALID_TRAILING b₁ && UTF8_IS_VALID_TRAILING b₂ && (b₀ ≠ 0xe0 || 0xa0 ≤ b₁) &&
        (b₀ ≠ 0xed || b₁ ≤ 0x9f) && !UTF8_NONCHAR_3BYTE b₀ b₁ b₂ then
      (some ((b₀.toNat % 16 * 64 + b₁.toNat % 64) * 64 + b₂.toNat % 64), 3)
    else (none, 1)
  | _ => (none, 1)

/-- A character of four bytes. -/
def UTF8_MBTOWC_4BYTE (b₀ : UInt8) : List UInt8 → Option Nat × Nat
  | b₁ :: b₂ :: b₃ :: _ =>
    if UTF8_IS_VALID_TRAILING b₁ && UTF8_IS_VALID_TRAILING b₂ && UTF8_IS_VALID_TRAILING b₃ &&
        (b₀ ≠ 0xf0 || 0x90 ≤ b₁) && (b₀ ≠ 0xf4 || b₁ ≤ 0x8f) && !UTF8_NONCHAR_4BYTE b₁ b₂ b₃ then
      (some (((b₀.toNat % 8 * 64 + b₁.toNat % 64) * 64 + b₂.toNat % 64) * 64 + b₃.toNat % 64), 4)
    else (none, 1)
  | _ => (none, 1)

/-- The code point of the next character and the number of its bytes. -/
def UTF8_MBTOWC : List UInt8 → Option Nat × Nat
  | [] => (none, 1)
  | b₀ :: rest =>
    if b₀ ≤ 0x7f then (some b₀.toNat, 1)
    else if utf8_bytelen b₀ = 1 then (none, 1)
    else if utf8_bytelen b₀ = 2 then UTF8_MBTOWC_2BYTE b₀ rest
    else if utf8_bytelen b₀ = 3 then UTF8_MBTOWC_3BYTE b₀ rest
    else UTF8_MBTOWC_4BYTE b₀ rest

/-- The number of characters, a malformed byte counting for one, in as many rounds as given. -/
def countChars : Nat → List UInt8 → Nat
  | 0, _ => 0
  | _ + 1, [] => 0
  | rounds + 1, str => countChars rounds (str.drop (UTF8_MBTOWC str).2) + 1

/-- The number of characters. -/
def utf8_len (str : List UInt8) : Nat := countChars str.length str

/-- Whether all characters are well formed. -/
def validChars : Nat → List UInt8 → Bool
  | 0, _ => true
  | _ + 1, [] => true
  | rounds + 1, str =>
    (UTF8_MBTOWC str).1.isSome && validChars rounds (str.drop (UTF8_MBTOWC str).2)

/-- Whether a string is UTF-8. -/
def valid_utf_string (str : List UInt8) : Bool := validChars str.length str

/-! ## Bytes -/

/-- The first entry for a byte rules. -/
def note (xlate : UInt8 → Int) (index : UInt8) (value : Int) : UInt8 → Int :=
  if xlate index = NO_VALUE then Function.update xlate index value else xlate

/-- The first loop of `create_byte_xlate_table`, with what is left of the search string. -/
def pairBytes : List UInt8 → List UInt8 → (UInt8 → Int) → (UInt8 → Int) × List UInt8
  | scur :: srch, rcur :: rplc, xlate => pairBytes srch rplc (note xlate scur rcur.toNat)
  | srch, _, xlate => (xlate, srch)

/-- Mark the bytes that are dropped. -/
def deleteBytes (srch : List UInt8) (xlate : UInt8 → Int) : UInt8 → Int :=
  srch.foldl (fun xlate scur => note xlate scur DELETE_VALUE) xlate

/-- Fill the table for bytes. -/
def create_byte_xlate_table (srch rplc : List UInt8) : UInt8 → Int :=
  let (xlate, srch) := pairBytes srch rplc fun _ => NO_VALUE
  deleteBytes srch xlate

/-- What a byte of the source becomes. -/
def translateByte (xlate : UInt8 → Int) (val : UInt8) : List UInt8 :=
  let n := xlate val
  if DELETE_VALUE ≠ n then if NO_VALUE = n then [val] else [UInt8.ofNat n.toNat] else []

/-- Translate byte by byte. -/
def op_fnztranslate_common (src : List UInt8) (xlate : UInt8 → Int) : List UInt8 :=
  src.flatMap (translateByte xlate)

/-! ## Characters of several bytes -/

/-- The table for single bytes, and the one by code point if there is one. -/
structure Tables where
  xlate : UInt8 → Int
  hash : Option (Nat → Option Int)

/-- Note a character of the search string: what the entry of a byte is, and what that of a code. -/
def Tables.note (tables : Tables) (scur : List UInt8) (value hashed : Int) : Tables :=
  let (scode, bytes) := UTF8_MBTOWC scur
  if bytes = 1 then { tables with xlate := Translate.note tables.xlate (scur.headD 0) value }
  else
    { tables with
      hash := tables.hash.map fun table =>
        match scode with
        | none => table
        | some code => if table code = none then Function.update table code (some hashed) else table }

/-- The first loop of `create_utf8_xlate_table`, with what is left of the search string. -/
def pairChars : Nat → List UInt8 → List UInt8 → Int → Tables → Tables × List UInt8
  | 0, scur, _, _, tables => (tables, scur)
  | rounds + 1, scur, rcur, offset, tables =>
    if scur = [] ∨ rcur = [] then (tables, scur)
    else
      let bytes := (UTF8_MBTOWC rcur).2
      pairChars rounds (scur.drop (UTF8_MBTOWC scur).2) (rcur.drop bytes) (offset + bytes)
        (tables.note scur offset (offset + 1))

/-- Mark the characters that are dropped. -/
def deleteChars : Nat → List UInt8 → Tables → Tables
  | 0, _, tables => tables
  | rounds + 1, scur, tables =>
    if scur = [] then tables
    else deleteChars rounds (scur.drop (UTF8_MBTOWC scur).2) (tables.note scur DELETE_VALUE MAXPOSINT4)

/-- `memset` of the first bytes of a table. -/
def clear (xlate_len : Nat) (xlate : UInt8 → Int) : UInt8 → Int := fun index =>
  if SIZEOF_int4 * (index.toNat + 1) ≤ xlate_len then NO_VALUE else xlate index

/-- The tables in the space `xlate`; nothing when the `assertpro` fails. -/
def create_utf8_xlate_table (srch rplc : List UInt8) (xlate_len : Nat) (xlate : UInt8 → Int) :
    Option Tables :=
  if utf8_len srch ≤ xlate_len ∧ NUM_CHARS * SIZEOF_int4 ≤ xlate_len then
    let empty : Option (Nat → Option Int) :=
      if srch.length = utf8_len srch then none else some fun _ => none
    let (tables, srch') := pairChars srch.length srch rplc 0 ⟨clear xlate_len xlate, empty⟩
    some (deleteChars srch.length srch' tables)
  else none

/-- The errors that a call may end with. -/
inductive TranslateError where
  | badchar
  | maxstrlen
deriving DecidableEq, Repr

/-- The bytes of the character at a place of the replacement string. -/
def charAt (rstr : List UInt8) (offset : Nat) : List UInt8 :=
  let rcur := rstr.drop offset
  rcur.take (UTF8_MBTOWC rcur).2

/-- What is copied for the next character of the source, which has `bytes` bytes. Nothing comes out for
a malformed character where there is a hash table: the loop ends there. -/
def translateChar (tables : Tables) (rstr src : List UInt8) (code : Option Nat) (bytes : Nat) :
    Option (List UInt8) :=
  if bytes = 1 then
    let val := src.headD 0
    let offset := tables.xlate val
    if DELETE_VALUE ≠ offset then
      if NO_VALUE = offset then some [val] else some (charAt rstr offset.toNat)
    else some []
  else
    match tables.hash with
    | some table =>
      match code with
      | none => none
      | some code =>
        match table code with
        | none => some (src.take bytes)
        | some offset =>
          if MAXPOSINT4 ≠ offset then some (charAt rstr (offset - 1).toNat) else some []
    | none => some (src.take bytes)

/-- The loop over the source, with the string so far. -/
def commonLoop (tables : Tables) (rstr : List UInt8) (single_byte_src : Bool) :
    Nat → List UInt8 → List UInt8 → Except TranslateError (List UInt8)
  | 0, _, dst => .ok dst
  | rounds + 1, srcptr, dst =>
    if srcptr = [] then .ok dst
    else
      let (code, bytes) := if single_byte_src then (none, 1) else UTF8_MBTOWC srcptr
      match translateChar tables rstr srcptr code bytes with
      | none => .ok dst
      | some copied =>
        if MAX_STRLEN < (dst ++ copied).length then .error .maxstrlen
        else commonLoop tables rstr single_byte_src rounds (srcptr.drop bytes) (dst ++ copied)

/-- Translate character by character. -/
def op_fntranslate_common (src rplc : List UInt8) (tables : Tables) :
    Except TranslateError (List UInt8) :=
  commonLoop tables rplc (src.length = utf8_len src) src.length src []

end Ydb.Translate
