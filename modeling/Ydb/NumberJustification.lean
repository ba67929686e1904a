import Ydb.Lib.FractionDigits
import Ydb.Mval

/-!
# Justified numbers

`$JUSTIFY` with three arguments writes a number with a given count of fractional digits, and
spaces before it up to a given width. A number held in thousandths is rounded and scaled to nine
digits behind a point; a float is rounded in its two words, and a carry out of the high word is
one more digit. Arithmetic of `int4` that overflows has no result.
-/

namespace Ydb.NumberJustification

open Lib

/-- Why a number is not justified. -/
inductive JustifyError where
  | JUSTFRACT
  | MAXSTRLEN
deriving DecidableEq, Repr

def MAX_STRLEN : Int := 1048576

def MAX_NUM_SIZE : Int := 64

/-- A value of an `int4` that is not negative. -/
def int4 (x : Nat) : Option Nat := if x < 2 ^ 31 then some x else none

/-- Half of the digit that is dropped. -/
def fives_table (i : Nat) : Nat := [500000000, 50000000, 5000000, 500000, 50000, 5000, 500, 50, 5].getD i 0

/-- `(n - n1 * 100000000) * 10`: the digit `n1` is shifted out. -/
def shiftOut (n n1 : Nat) : Option Nat := do
  let high ← int4 (n1 * 100000000)
  int4 ((n - high) * 10)

/-- Blanks up to the width. -/
def spaces (w : Int) : List UInt8 := List.replicate w.toNat 0x20

/-- The sign, if negative. -/
def minusSign (sign : Bool) : List UInt8 := if sign then [Ascii.minus] else []

/-! ## Thousandths -/

/-- Round an integer in thousandths. -/
def roundThousandths (n : Nat) (fract : Nat) : Option Nat :=
  if fract < 3 then int4 (n + fives_table (fract + 6)) else int4 n

/-- The loop that shifts the first digit to the top, with the count of digits before the point. -/
def scaleThousandths : Nat → Nat → Option (Nat × Nat)
  | 0, _ => none
  | digs + 1, n =>
    if n < 100000000 then do
      let n ← int4 (n * 10)
      scaleThousandths digs n
    else some (digs + 1, n)

/-- The digits before the point: the sign, their count, and the number scaled. -/
def leadThousandths (n : Nat) (sign : Bool) (fract : Nat) : Option (Bool × Nat × Nat) :=
  if n < 1000 then
    if sign = true ∧ fract < 4 ∧ n / ten_pwr (3 - fract) = 0 then some (false, 0, 0)
    else do
      let n ← int4 (n * 1000000)
      return (sign, 0, n)
  else if 1000000000 ≤ n then some (sign, 7, n)
  else do
    let (digs, n) ← scaleThousandths 6 n
    return (sign, digs, n)

/-- `for ( ; digs > 0 ; digs--)`. -/
def wholeThousandths : Nat → Nat → Option (List UInt8 × Nat)
  | 0, n => some ([], n)
  | digs + 1, n => do
    let n1 := n / 100000000
    let n ← shiftOut n n1
    let (after, n) ← wholeThousandths digs n
    return (digitByte n1 :: after, n)

/-- `for (digs = fract ; digs > 0 && n != 0; digs--)`, then zeros. -/
def fractThousandths : Nat → Nat → Option (List UInt8)
  | 0, _ => some []
  | digs + 1, n =>
    if n ≠ 0 then do
      let n1 := n / 100000000
      let n ← shiftOut n n1
      let after ← fractThousandths digs n
      return digitByte n1 :: after
    else some (List.replicate (digs + 1) Ascii.zero)

/-- The digits before the point. After an overflow by one digit the first is a one. -/
def writeWhole (digs n : Nat) : Option (List UInt8 × Nat) :=
  if digs = 0 then some ([Ascii.zero], n)
  else if digs = 7 then do
    let (after, n) ← wholeThousandths 6 (n - 1000000000)
    return (0x31 :: after, n)
  else wholeThousandths digs n

/-- The point and the digits behind it. -/
def writeFraction (fract n : Nat) : Option (List UInt8) :=
  if fract ≠ 0 then (fractThousandths fract n).map (Ascii.dot :: ·) else some []

/-- Write a rounded integer. -/
def writeThousandths (width fract : Nat) (sign : Bool) (digs n : Nat) : Option (List UInt8) := do
  let w : Int := width - (if sign then 1 else 0) - (if fract ≠ 0 then 1 else 0) - fract - digs
  let w := if digs = 0 then w - 1 else w
  let (whole, n) ← writeWhole digs n
  let tail ← writeFraction fract n
  return spaces w ++ minusSign sign ++ whole ++ tail

/-- Justify an integer. -/
def justifyThousandths (m1 : Int) (width fract : Nat) : Option (List UInt8) := do
  let n ← int4 m1.natAbs
  let n ← roundThousandths n fract
  let (sign, digs, n) ← leadThousandths n (decide (m1 < 0)) fract
  writeThousandths width fract sign digs n

/-! ## Floats -/

/-- The two words, and the count of digits before the point. -/
structure TwoWords where
  n : Nat
  m : Nat
  digs : Int

/-- A carry out of the high word. -/
def carryOut (f : TwoWords) : Option TwoWords := do
  let n1 := f.n / 10
  let tens ← int4 (n1 * 10)
  let low ← int4 ((f.n - tens) * MANT_LO)
  let m ← int4 (f.m / 10 + low)
  return { n := n1, m := m, digs := f.digs + 1 }

/-- Round in the high word. -/
def roundHigh (f : TwoWords) (w : Nat) : Option TwoWords := do
  let n ← int4 (f.n + fives_table w)
  if MANT_HI ≤ n then carryOut { f with n := n } else return { f with n := n }

/-- Round in the low word. -/
def roundLow (f : TwoWords) (w : Nat) : Option TwoWords := do
  let m ← int4 (f.m + fives_table (w - 9))
  if MANT_HI ≤ m then
    let m := m - MANT_HI
    let n ← int4 (f.n + 1)
    if MANT_HI ≤ n then carryOut { f with n := n, m := m } else return { f with n := n, m := m }
  else return { f with m := m }

/-- Round a float, by the digits to keep. -/
def roundFloat (f : TwoWords) (fract : Nat) : Option TwoWords :=
  let w := f.digs + fract
  if w < 18 ∧ 0 ≤ w then if w < 9 then roundHigh f w.toNat else roundLow f w.toNat else some f

/-- The two words while digits are taken from them. -/
structure Words where
  n : Nat
  m : Nat
  digs_used : Nat

/-- The words after a digit: the low word follows when nine digits are used. -/
def nextWords (s : Words) (n1 : Nat) : Option Words :=
  if s.digs_used + 1 = 9 then some { n := s.m, m := 0, digs_used := s.digs_used + 1 }
  else do
    let n ← shiftOut s.n n1
    return { s with n := n, digs_used := s.digs_used + 1 }

/-- `for ( ; digs > 0 && (n != 0 || m != 0); digs--)`, then zeros. -/
def writeDigits : Nat → Words → Option (List UInt8 × Words)
  | 0, s => some ([], s)
  | digs + 1, s =>
    if s.n ≠ 0 ∨ s.m ≠ 0 then do
      let n1 := s.n / 100000000
      let s ← nextWords s n1
      let (after, s) ← writeDigits digs s
      return (digitByte n1 :: after, s)
    else some (List.replicate (digs + 1) Ascii.zero, s)

/-- The digits in front of the point. -/
def writeFloatWhole (digs : Int) (s : Words) : Option (List UInt8 × Words) :=
  if digs < 1 then some ([Ascii.zero], s) else writeDigits digs.toNat s

/-- The digits behind the point. -/
def writeFloatFraction (digs : Int) (fract : Nat) (s : Words) : Option (List UInt8) :=
  if fract ≠ 0 then do
    let zeros := if digs < 0 then min (-digs).toNat fract else 0
    let (ds, _) ← writeDigits (fract - zeros) s
    return Ascii.dot :: (List.replicate zeros Ascii.zero ++ ds)
  else some []

/-- Write a rounded float. -/
def writeFloat (width fract : Nat) (sign : Bool) (f : TwoWords) : Option (List UInt8) := do
  let w : Int := width - fract - (if fract ≠ 0 then 1 else 0) - (if sign then 1 else 0) -
    (if f.digs < 1 then 1 else f.digs)
  let s : Words := { n := f.n, m := f.m, digs_used := 0 }
  let (whole, s) ← writeFloatWhole f.digs s
  let tail ← writeFloatFraction f.digs fract s
  return spaces w ++ minusSign sign ++ whole ++ tail

/-- Justify a float. -/
def justifyFloat (sgn : Bool) (e : Nat) (m1 m0 : Int) (width fract : Nat) : Option (List UInt8) := do
  let f ← roundFloat { n := m1.toNat, m := m0.toNat, digs := e - MV_XBIAS } fract
  if f.digs ≤ -(fract : Int) then writeFloat width fract false { f with n := 0, m := 0 }
  else writeFloat width fract sgn f

/-! ## The routine -/

/-- The string of the result, or none where `int4` arithmetic overflows. -/
def op_fnj3 (src : Mval) (width fract : Int) : Except JustifyError (Option (List UInt8)) :=
  let width := if width < 0 then 0 else width
  if MAX_STRLEN < width then .error .MAXSTRLEN
  else if fract < 0 then .error .JUSTFRACT
  else if MAX_STRLEN < fract then .error .MAXSTRLEN
  else
    let w := width + MAX_NUM_SIZE + 2 + fract
    if MAX_STRLEN < w then .error .MAXSTRLEN
    else if src.mvtype.int then .ok (justifyThousandths src.m1 width.toNat fract.toNat)
    else .ok (justifyFloat src.sgn src.e src.m1 src.m0 width.toNat fract.toNat)

/-! ## What is written -/

/-- A number rounded to `fract` digits: no sign of a zero, and a digit before the point. -/
def fixedText (q : ℚ) (fract : Nat) : List UInt8 :=
  let units := roundedUnits 10 fract q
  minusSign (decide (q < 0 ∧ units ≠ 0)) ++ (numeral 10 (units / 10 ^ fract)).map digitByte ++
    if fract ≠ 0 then Ascii.dot :: (digits 10 fract (units % 10 ^ fract)).map digitByte else []

/-- Spaces before a text that is not as wide. -/
def justified (width : Nat) (text : List UInt8) : List UInt8 :=
  List.replicate (width - text.length) 0x20 ++ text

end Ydb.NumberJustification
