import Ydb.SubscriptTexts
import Ydb.Lib.MachineWords

/-!
# Extracting a subscript

`op_fnqsubscript` scans the component of a name that `is_canonic_name` has delimited, here in M mode.
A number is copied. Anything else is scanned with a mark whether the place is inside quotes: a run of
quotes is taken at once, and outside of quotes a call of `$CHAR` or `$ZCHAR` is looked for.
-/

namespace Ydb.QSubscript

open Lib NameParse

/-- The scan of a component: the name from `isrc` on, and the string so far. -/
structure Scan where
  src : List UInt8
  isrc : Nat
  instring : Bool
  dst : List UInt8
deriving DecidableEq, Repr

/-- A byte is written within the bytes reserved. -/
def write (reserved : Int) (letter : UInt8) (dst : List UInt8) : Option (List UInt8) :=
  if (dst.length : Int) < reserved then some (dst ++ [letter]) else none

/-- Copy a component without the quotes that double others. -/
def copyText (stop : Nat) (reserved : Int) : Nat → List UInt8 → Nat → List UInt8 → Option (List UInt8)
  | 0, _, _, _ => none
  | _ + 1, [], isrc, dst => if isrc < stop then none else some dst
  | turns + 1, letter :: src, isrc, dst =>
    if isrc < stop then
      (write reserved letter dst).bind fun dst =>
        if letter = Ascii.quote then
          src.head?.bind fun next =>
            if next = Ascii.quote then copyText stop reserved turns src.tail (isrc + 2) dst
            else copyText stop reserved turns src (isrc + 1) dst
        else copyText stop reserved turns src (isrc + 1) dst
    else some dst

/-- The quotes behind a quote, up to another letter. Each changes the mark, and one that leaves the
string is written. -/
def quotes (stop : Nat) (reserved : Int) : List UInt8 → Nat → Bool → List UInt8 → Option (UInt8 × Scan)
  | [], _, _, _ => none
  | letter :: src, isrc, instring, dst =>
    (if instring then write reserved Ascii.quote dst else some dst).bind fun dst =>
      if letter = Ascii.quote ∧ isrc + 1 ≤ stop then quotes stop reserved src (isrc + 1) (!instring) dst
      else some (letter, ⟨src, isrc + 1, !instring, dst⟩)

/-- Lose the closing quote when the run has written one. -/
def loseQuote (ch_int : Nat) (s : Scan) : Scan :=
  if s.instring = false ∧ s.dst.length > ch_int then { s with dst := s.dst.dropLast } else s

/-- Read up to a letter. -/
def skipPast (letter : UInt8) : List UInt8 → Nat → Option (List UInt8 × Nat)
  | [], _ => none
  | ch :: src, isrc => if ch = letter then some (src, isrc + 1) else skipPast letter src (isrc + 1)

/-- The loop of `A2I`, which a negative number ends. -/
def a2iLoop (num : Int) : List UInt8 → Int
  | [] => num
  | ch :: rest => if 0 ≤ num then a2iLoop (int4Value (num * 10 + digitVal ch)) rest else num

/-- The number of digits, minus one if there are none. -/
def A2I (digits : List UInt8) : Int := if digits = [] then -1 else a2iLoop 0 digits

def MAXPOSINT4 : Int := 0x7fffffff

/-- The character that is copied for a code, if it is a byte. -/
def codeByte (digits : List UInt8) : Option UInt8 :=
  let ch_int := if 0 > A2I digits then MAXPOSINT4 else A2I digits
  if ch_int < 256 then some (UInt8.ofNat ch_int.toNat) else none

/-- The codes of a call. The digits are those since the last comma. -/
def scanCodes (reserved : Int) :
    List UInt8 → List UInt8 → Nat → List UInt8 → Option (List UInt8 × Nat × List UInt8)
  | [], _, _, _ => none
  | ch :: src, digits, isrc, dst =>
    if isDigit ch then scanCodes reserved src (digits ++ [ch]) (isrc + 1) dst
    else
      ((codeByte digits).elim (some dst) fun byte => write reserved byte dst).bind fun dst =>
        if ch = Ascii.comma then scanCodes reserved src [] (isrc + 1) dst
        else some (src, isrc + 1, dst)

/-- A call whose dollar sign is the letter or comes behind it, with the character behind the call. -/
def takeCall (reserved : Int) (letter : UInt8) (s : Scan) : Option Scan :=
  (if letter = Ascii.dollar then some (s.src, s.isrc) else skipPast Ascii.dollar s.src s.isrc).bind
    fun (src, isrc) =>
      src.head?.bind fun _ =>
        (skipPast Ascii.open_paren src.tail (isrc + 1)).bind fun (src, isrc) =>
          (scanCodes reserved src [] isrc s.dst).map fun (src, isrc, dst) =>
            ⟨src.tail, isrc + 1, s.instring, dst⟩

/-- What is done with a letter that is no quote. -/
def takeLetter (stop : Nat) (reserved : Int) (letter : UInt8) (s : Scan) : Option Scan :=
  if s.instring then (write reserved letter s.dst).map fun dst => { s with dst := dst }
  else if s.isrc < stop then takeCall reserved letter s
  else some s

/-- What follows a run of quotes, with the letter behind it. -/
def afterQuotes (stop : Nat) (reserved : Int) (ch_int : Nat) (go : Scan → Option (List UInt8))
    (behind : UInt8 × Scan) : Option (List UInt8) :=
  let s := loseQuote ch_int behind.2
  if s.isrc = stop then some s.dst else (takeLetter stop reserved behind.1 s).bind go

/-- The loop over quotes and calls. -/
def scan (stop : Nat) (reserved : Int) : Nat → Scan → Option (List UInt8)
  | 0, _ => none
  | turns + 1, s =>
    if s.isrc < stop then
      s.src.head?.bind fun letter =>
        if letter = Ascii.quote then
          (quotes stop reserved s.src.tail (s.isrc + 1) s.instring s.dst).bind
            (afterQuotes stop reserved s.dst.length (scan stop reserved turns))
        else
          (takeLetter stop reserved letter { s with src := s.src.tail, isrc := s.isrc + 1 }).bind
            (scan stop reserved turns)
    else some s.dst

/-- Why $QSUBSCRIPT fails. -/
inductive QSubscriptError where
  | nosubscript (seq : Int)
  | nocanonicname (src : List UInt8)
deriving DecidableEq

/-- Whether a component may be copied: it is at the start, behind a quote, or starts with neither a
quote nor a dollar sign. -/
def plainComponent (src : List UInt8) (isrc : Nat) : Option Bool :=
  if isrc = 0 ∨ src.getD (isrc - 1) 0 = Ascii.quote then some true
  else src[isrc]?.map fun letter => letter ≠ Ascii.quote ∧ letter ≠ Ascii.dollar

/-- The component `seq` of a name. The string is missing if the scan reads outside the name, writes
more than was reserved or does not end. -/
def op_fnqsubscript (src : List UInt8) (seq : Int) : Except QSubscriptError (Option (List UInt8)) :=
  if seq < -1 then .error (.nosubscript seq)
  else
    match is_canonic_name false src seq with
    | none => .error (.nocanonicname src)
    | some (subs_count, isrc, stop) =>
      let reserved : Int := (stop : Int) - isrc + 1
      if subs_count ≥ seq then
        let caret := if seq = 0 ∧ src.getD 0 0 = Ascii.caret then write reserved Ascii.caret [] else some []
        .ok (caret.bind fun dst => (plainComponent src isrc).bind fun plain =>
          if plain then copyText stop reserved (src.length + 1) (src.drop isrc) isrc dst
          else scan stop reserved (src.length + 1) ⟨src.drop isrc, isrc, false, dst⟩)
      else .ok (some [])

end Ydb.QSubscript
