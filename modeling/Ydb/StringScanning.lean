import Ydb.NumberPrinting

/-!
# Scanning a string for a number

`s2n` reads the longest numeric prefix of a string into the numeric fields of an
`mval`. It strips signs and leading zeros, packs up to nine digits into each of
the two words, passes over zeros beyond the eighteenth digit and reads an
exponent. `MV_NUM_APPROX` records that the string is not the canonical form of
the number read. `valIscan` decides canonical form from the string alone.

The source scans with pointers `c`, `d` and `w` into the string: `c` is the
remaining text here, and `d - c` is the room left in the current word. Since `w`
is always the nearer of `d` and the end of the string, `c < w` says that both
text and room remain.
-/

namespace Ydb

/-- Run-time errors of the modelled routines. -/
inductive RtsError where
  | assertpro
  | numoflow
  | gvsuboflow
  | zysqlnullnotvalid
  | nocanonicname
  | invdlrcval
  | divzero
deriving DecidableEq, Repr

/-- The thread-global cells that `s2n` reads or sets. -/
structure ThreadGbl where
  compile_time : Bool
  s2n_intlit : Bool
deriving DecidableEq, Repr

/-- Count the signs: one for a minus, two for a plus. -/
def scanSigns : Nat → List UInt8 → Nat × List UInt8
  | sign, [] => (sign, [])
  | sign, c :: rest =>
    if c = Ascii.minus then scanSigns (sign + 1) rest
    else if c = Ascii.plus then scanSigns (sign + 2) rest
    else (sign, c :: rest)

/-- Count and pass over zeros. -/
def scanZeros : Nat → List UInt8 → Nat × List UInt8
  | count, [] => (count, [])
  | count, c :: rest =>
    if c = Ascii.zero then scanZeros (count + 1) rest else (count, c :: rest)

/-- The state of a loop that packs digits into one word: the word, the zeros at
its low end, the digits counted, the room left and the remaining text. -/
structure Packing where
  m : Nat
  i : Nat
  z : Nat
  room : Nat
  rest : List UInt8
deriving DecidableEq, Repr

/-- Pack digits while room and digits remain. -/
def packDigits (m i z room : Nat) : List UInt8 → Packing
  | [] => ⟨m, i, z, room, []⟩
  | c :: rest =>
    if 0 < room ∧ isDigit c = true then
      if c = Ascii.zero then packDigits (m * 10) (i + 1) (z + 1) (room - 1) rest
      else packDigits (m * 10 + digitVal c) 0 (z + 1) (room - 1) rest
    else ⟨m, i, z, room, c :: rest⟩

/-- What the scan of one word passes on. `y` is the place of the point. -/
structure WordScan where
  m : Nat
  i : Nat
  y : Int
  z : Nat
  dot : Bool
  room : Nat
  rest : List UInt8
deriving DecidableEq, Repr

/-- Scan one word of nine digits. A first point inside the word ends the digits
that count towards `z`; the digits behind it fill the remaining room. -/
def scanWord (i : Nat) (y : Int) (z : Nat) (dot : Bool) (c : List UInt8) : WordScan :=
  let whole := packDigits 0 i z NUM_DEC_DG_1L c
  match whole.rest with
  | [] => ⟨whole.m, whole.i, y, whole.z, dot, whole.room, []⟩
  | p :: rest =>
    if 0 < whole.room ∧ p = Ascii.dot ∧ dot = false then
      let fraction := packDigits whole.m whole.i 0 whole.room rest
      ⟨fraction.m, fraction.i, whole.z, whole.z, true, fraction.room, fraction.rest⟩
    else ⟨whole.m, whole.i, y, whole.z, dot, whole.room, p :: rest⟩

/-- Pass over the digits and points that carry no more precision. Digits count
towards `z` until the first point. -/
def scanExcess (dot : Bool) : Bool → Nat → List UInt8 → Nat × List UInt8
  | _, z, [] => (z, [])
  | dotseen, z, c :: rest =>
    if (c = Ascii.dot ∧ dot = false) ∨ isDigit c = true then
      let dotseen := dotseen || c = Ascii.dot
      scanExcess dot dotseen (if dotseen then z else z + 1) rest
    else (z, c :: rest)

/-- Read exponent digits; those after the first three are ignored. -/
def scanExponent : Nat → Nat → List UInt8 → Nat × Nat × List UInt8
  | x, expdigits, [] => (x, expdigits, [])
  | x, expdigits, c :: rest =>
    if isDigit c = true then
      if expdigits < MAX_DIGITS_IN_EXP + 1 then
        scanExponent (x * 10 + digitVal c) (expdigits + 1) rest
      else scanExponent x expdigits rest
    else (x, expdigits, c :: rest)

/-- The exponent after an `E`, and where scanning ends. Without a digit the text
goes back to the `E`. -/
def exponentPart (c : List UInt8) : Int × List UInt8 :=
  match c with
  | e :: s :: rest =>
    let exneg := s = Ascii.minus
    let d := if exneg ∨ s = Ascii.plus then rest else s :: rest
    let zeros := scanZeros 0 d
    let (x, expdigits, after) := scanExponent 0 0 zeros.2
    if expdigits = 0 ∧ after.length = d.length then (0, e :: s :: rest)
    else (if exneg then -x else x, after)
  | _ => (0, c)

/-- What the scan of a nonempty string leaves for the choice of numeric form. -/
structure Scan where
  sign : Nat
  zero : Nat
  dot : Bool
  y : Int
  z : Nat
  /-- Zeros at the low end of the first word. -/
  i : Nat
  /-- Room left in the first word. -/
  k : Nat
  m1 : Nat
  m0 : Nat
  tail : Bool
  digit : Bool
  exp : Bool
  x : Int
  rest : List UInt8
deriving DecidableEq, Repr

/-- The scan before the exponent: the state once both words and the zeros behind
them are read. The second word is read only if text remains. -/
structure Mantissa where
  first : WordScan
  m0 : Nat
  y : Int
  z : Nat
  dot : Bool
  rest : List UInt8
deriving DecidableEq, Repr

/-- Scan the digits and the point. -/
def scanMantissa (y : Int) (dot : Bool) (c : List UInt8) : Mantissa :=
  let first := scanWord 0 y 0 dot c
  if first.rest = [] then ⟨first, 0, first.y, first.z, first.dot, []⟩
  else
    let second := scanWord 0 first.y first.z first.dot first.rest
    let zeros := scanZeros 0 second.rest
    ⟨first, second.m * ten_pwr second.room, second.y, second.z + zeros.1, second.dot, zeros.2⟩

/-- The string does not end as a canonical number does: text remains, or the
character before its end is a point or a zero of the fraction. -/
def endsBadly (text rest : List UInt8) (dot : Bool) : Bool :=
  !rest.isEmpty ||
    (dot && (text.getLast? == some Ascii.zero || text.getLast? == some Ascii.dot))

/-- A point in front of the first digit that counts, and the zeros behind it. -/
def scanPoint (c : List UInt8) : Bool × Int × List UInt8 :=
  match c with
  | [] => (false, 0, [])
  | p :: rest =>
    let dot := p = Ascii.dot
    let zeros := scanZeros 0 (if dot then rest else p :: rest)
    (dot, -zeros.1, zeros.2)

/-- Scan a nonempty string. -/
def scan (text : List UInt8) : Scan :=
  let (sign, c) := scanSigns 0 text
  let (leading, c) := scanZeros 0 c
  let (dot, y, c) := scanPoint c
  let mantissa := scanMantissa y dot c
  let tail := endsBadly text mantissa.rest mantissa.dot
  let (z, c) := scanExcess mantissa.dot mantissa.dot mantissa.z mantissa.rest
  let digit := z ≠ 0 ∨ mantissa.y ≠ 0 ∨ leading ≠ 0
  let exp := c.head? = some Ascii.upperE ∧ digit
  let (x, c) := if exp then exponentPart c else (0, c)
  ⟨sign, leading, mantissa.dot, mantissa.y, z, mantissa.first.i, mantissa.first.room,
    mantissa.first.m, mantissa.m0, tail, digit, exp, x, c⟩

/-- The string is not the canonical form of the number read. -/
def Scan.approximate (sc : Scan) (len : Nat) : Bool :=
  sc.tail || decide (1 < sc.sign) || (decide (sc.zero ≠ 0) && decide (len ≠ 1))

/-- What `s2n` returns: the value, where scanning ended and the global cells. -/
structure S2n where
  u : Mval
  rest : List UInt8
  tg : ThreadGbl
deriving DecidableEq, Repr

/-- The pre-converted empty string. -/
def literalNull : Mval := ⟨⟨true, true, true, true, false⟩, false, 0, 0, 0, []⟩
/-- The pre-converted `$ZYSQLNULL`. -/
def literalSqlnull : Mval := ⟨⟨true, false, true, true, true⟩, false, 0, 0, 0, []⟩

/-- Choose the numeric form. `MV_INT` holds the number when it has at most six
digits before the point and no more than three behind it. -/
def convert (tg : ThreadGbl) (u : Mval) (sc : Scan) : Except RtsError S2n :=
  let mvtype := u.mvtype
  let tg := { tg with s2n_intlit := decide (sc.sign ≠ 0) || sc.dot || sc.exp }
  let negative := decide (sc.sign % 2 = 1)
  let x := sc.x + (if sc.dot then sc.y else sc.z)
  let j := x + sc.k - 6
  let approx := mvtype.numApprox || sc.approximate u.str.length
  if sc.digit = false then
    .ok ⟨{ u with
      mvtype := { mvtype with nm := true, int := true, numApprox := true }
      m0 := sc.m0, m1 := 0 }, sc.rest, tg⟩
  else if sc.m0 = 0 ∧ x ≤ 6 ∧ 0 ≤ sc.i + j then
    let scale : Int := if negative then -ten_pwr j.natAbs else ten_pwr j.natAbs
    .ok ⟨{ u with
      mvtype := { mvtype with nm := true, int := true, numApprox := approx }
      m0 := sc.m0
      m1 := if j < 0 then (sc.m1 : Int).tdiv scale else sc.m1 * scale }, sc.rest, tg⟩
  else
    let m1 := sc.m1 * ten_pwr sc.k
    let e := x + MV_XBIAS
    if e < EXPLO ∨ m1 = 0 then
      .ok ⟨{ u with
        mvtype := { mvtype with nm := true, int := true, numApprox := true }
        m0 := sc.m0, m1 := 0 }, sc.rest, tg⟩
    else if EXPHI ≤ e then
      if tg.compile_time then
        .ok ⟨{ u with
          mvtype := { mvtype with nm := false, int := false, numApprox := false }
          m0 := sc.m0, m1 := m1 }, sc.rest, { tg with s2n_intlit := false }⟩
      else .error .numoflow
    else
      .ok ⟨{ u with
        mvtype := { mvtype with nm := true, numApprox := approx }
        sgn := negative, e := e.toNat, m0 := sc.m0, m1 := m1 }, sc.rest, tg⟩

/-- Convert the string of `u` to a number. -/
def s2n (tg : ThreadGbl) (u : Mval) : Except RtsError S2n :=
  if u.mvtype.str = false ∧ u.mvtype.nm = false then .error .assertpro
  else if u.str = [] then
    if u.mvtype.sqlnull then .ok ⟨literalSqlnull, [], tg⟩
    else .ok ⟨literalNull, [], { tg with s2n_intlit := true }⟩
  else convert tg u (scan u.str)

/-! ## Deciding canonical form -/

/-- The digit loops of `val_iscan`: trailing zeros, digits and the exponent,
which grows by `step` for each digit. -/
def iscanDigits (step : Int) (zeroes sigdigs : Nat) (exp : Int) :
    List UInt8 → Nat × Nat × Int × List UInt8
  | [] => (zeroes, sigdigs, exp, [])
  | c :: rest =>
    if isDigit c = true then
      iscanDigits step (if c = Ascii.zero then zeroes + 1 else 0) (sigdigs + 1) (exp + step) rest
    else (zeroes, sigdigs, exp, c :: rest)

/-- The closing test of `val_iscan`. -/
def iscanAccepts (text rest : List UInt8) (dot : Bool) (sigdigs : Nat) (exp : Int) : Bool :=
  !(endsBadly text rest dot || decide (NUM_DEC_DG_2L < sigdigs) ||
    decide (exp + MV_XBIAS < EXPLO) || decide (EXPHI ≤ exp + MV_XBIAS))

/-- The scan behind an optional minus sign. -/
def iscanBody (text : List UInt8) : List UInt8 → Bool
  | [] => false
  | p :: after =>
    if isDigit p = true ∧ p ≠ Ascii.zero then
      let (zeroes, sigdigs, exp, rest) := iscanDigits 1 0 0 0 (p :: after)
      match rest with
      | q :: fraction =>
        if q = Ascii.dot then
          let (zeroes, sigdigs, exp, rest) := iscanDigits 0 zeroes sigdigs exp fraction
          iscanAccepts text rest true (sigdigs - zeroes) exp
        else iscanAccepts text (q :: fraction) false (sigdigs - zeroes) exp
      | [] => iscanAccepts text [] false (sigdigs - zeroes) exp
    else if p = Ascii.dot then
      let (leading, rest) := scanZeros 0 after
      let (_, sigdigs, exp, rest) := iscanDigits 0 0 0 (-leading) rest
      iscanAccepts text rest true sigdigs exp
    else false

/-- The text is the canonical form of a number. -/
def valIscanText (text : List UInt8) : Bool :=
  if text = [] then false
  else if text = [Ascii.zero] then true
  else iscanBody text (if text.head? = some Ascii.minus then text.tail else text)

/-- `MV_FORCE_STR`: print the number unless the string is valid. -/
def mvForceStr (v : Mval) : Mval := if v.mvtype.str then v else n2s v

/-- Whether a value is a number with nothing behind. -/
def valIscan (v : Mval) : Bool := valIscanText (mvForceStr v).str

end Ydb
