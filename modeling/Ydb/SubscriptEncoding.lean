import Ydb.CanonicalNumbers

/-!
# Encoding a subscript

`mval2subsc` appends one subscript to a global key. A number becomes an exponent
byte and its digits in pairs, without trailing zero pairs; every byte of a
negative number is complemented and a closing byte follows, so that bytewise
comparison of keys is comparison of numbers. A string becomes a prefix byte and
its characters, with the two lowest characters escaped. Either ends with a key
delimiter, and a second delimiter ends the key.
-/

namespace Ydb

open Lib

/-- Bias of the exponent byte of a numeric subscript. -/
def SUBSCRIPT_BIAS : Nat := 0xbe
abbrev SUBSCRIPT_ZERO : UInt8 := 0x80
abbrev SUBSCRIPT_STDCOL_NULL : UInt8 := 0x01
abbrev STR_SUB_PREFIX : UInt8 := 0xff
abbrev STR_SUB_ESCAPE : UInt8 := 0x01
abbrev NEG_MNTSSA_END : UInt8 := 0xff
abbrev KEY_DELIMITER : UInt8 := 0x00
def MAX_GVKEY_PADDING_LEN : Nat := 26

/-- The code of a pair of digits: tens in the high nibble, units plus one in the
low nibble. -/
def pos_code : List UInt8 :=
  (List.range 100).map fun pair => UInt8.ofNat (pair / 10 * 16 + pair % 10 + 1)

/-- The complemented codes. -/
def neg_code : List UInt8 :=
  (List.range 100).map fun pair => UInt8.ofNat (254 - (pair / 10 * 16 + pair % 10))

/-- A global key: the bytes up to and including the one at `end_`, the offset of
the last subscript, and the size of the allocation. -/
structure GvKey where
  top : Nat
  end_ : Nat
  prev : Nat
  base : List UInt8
deriving DecidableEq, Repr

/-- An alternative collation: its transformation of a string and the way back. -/
structure Collseq where
  xform : List UInt8 → Except RtsError (List UInt8)
  xback : List UInt8 → Except RtsError (List UInt8)

/-- The collation data of the current global: whether numbers collate as strings,
and the alternative collation if there is one. -/
structure GvTarget where
  nct : Bool
  collseq : Option Collseq

/-- The global cells that subscript encoding reads. -/
structure SubscEnv where
  tg : ThreadGbl
  transform : Bool
  gv_target : GvTarget

/-! ## Numbers -/

/-- A pair of digits as a byte. -/
def cvtTable (is_negative : Bool) (pair : Nat) : UInt8 :=
  (if is_negative then neg_code else pos_code).getD pair 0

/-- The exponent as a byte. -/
def exponentByte (is_negative : Bool) (exp_val : Nat) : UInt8 :=
  if is_negative then ~~~ UInt8.ofNat exp_val else UInt8.ofNat exp_val

/-- The loop that converts the remaining pairs. `tm` grows downwards in front of
the pairs already converted. -/
def finishIntegers (cvt : Nat → UInt8) : Nat → Nat → List UInt8 → List UInt8
  | 0, _, tm => tm
  | room + 1, mt, tm =>
    if mt = 0 then tm
    else finishIntegers cvt room (mt / 100) (cvt (mt - mt / 100 * 100) :: tm)

/-- The loop that drops trailing zero pairs. -/
def keepStriping (cvt : Nat → UInt8) : Nat → Nat → List UInt8
  | 0, _ => []
  | room + 1, mt =>
    if mt = 0 then []
    else
      let mw := mt - mt / 100 * 100
      if mw ≠ 0 then finishIntegers cvt room (mt / 100) [cvt mw]
      else keepStriping cvt room (mt / 100)

/-- Size of `temp_mantissa`, which bounds the loops. -/
def TEMP_MANTISSA : Nat := NUM_DEC_DG_2L / 2 + 3

/-- `ODD_INTEGER`: the lowest digit is the tens digit of its pair. -/
def oddInteger (cvt : Nat → UInt8) (mt : Nat) : List UInt8 :=
  let mw := mt - mt / 10 * 10
  if mw ≠ 0 then finishIntegers cvt TEMP_MANTISSA (mt / 10) [cvt (mw * 10)]
  else keepStriping cvt TEMP_MANTISSA (mt / 10)

/-- The pairs of an even number of digits. -/
def evenInteger (cvt : Nat → UInt8) (mt : Nat) : List UInt8 := keepStriping cvt TEMP_MANTISSA mt

/-- `FINISH_NUMBER`. -/
def finishNumber (is_negative : Bool) (bytes : List UInt8) : List UInt8 :=
  if is_negative then bytes ++ [NEG_MNTSSA_END] else bytes

/-- An `MV_INT` number, by its number of digits. -/
def encodeInteger (m1 : Int) : List UInt8 :=
  if m1 = 0 then [SUBSCRIPT_ZERO]
  else
    let is_negative := decide (m1 < 0)
    let cvt := cvtTable is_negative
    let mt := m1.natAbs
    let exponent := exponentByte is_negative
    finishNumber is_negative
      (if mt < 10 then [exponent (SUBSCRIPT_BIAS - 2), cvt (mt * 10)]
       else if mt < 100 then [exponent (SUBSCRIPT_BIAS - 1), cvt mt]
       else if mt < 1000 then exponent SUBSCRIPT_BIAS :: oddInteger cvt mt
       else if mt < 10000 then exponent (SUBSCRIPT_BIAS + 1) :: evenInteger cvt mt
       else if mt < 100000 then exponent (SUBSCRIPT_BIAS + 2) :: oddInteger cvt mt
       else if mt < 1000000 then exponent (SUBSCRIPT_BIAS + 3) :: evenInteger cvt mt
       else if mt < 10000000 then exponent (SUBSCRIPT_BIAS + 4) :: oddInteger cvt mt
       else if mt < 100000000 then exponent (SUBSCRIPT_BIAS + 5) :: evenInteger cvt mt
       else exponent (SUBSCRIPT_BIAS + 6) :: oddInteger cvt mt)

/-- Take the top pair of a word of nine digits, and move the rest up. -/
def topPair (mt : Nat) : Nat × Nat :=
  let mx := mt / (MANT_HI / 100)
  (mx, (mt - mx * (MANT_HI / 100)) * 100)

/-- The loop over four pairs. -/
def convertPairs (cvt : Nat → UInt8) : Nat → Nat → List UInt8
  | 0, _ => []
  | digs + 1, mt => cvt (topPair mt).1 :: convertPairs cvt digs (topPair mt).2

/-- `LAST_LONGWORD`: pairs until only zeros remain. A word holds at most five. -/
def lastLongword (cvt : Nat → UInt8) : Nat → Nat → List UInt8
  | 0, _ => []
  | room + 1, mt =>
    if mt = 0 then [] else cvt (topPair mt).1 :: lastLongword cvt room (topPair mt).2

/-- The eighteen digits of a float. The ninth digit of the first word and the
first digit of the second word form one pair. -/
def encodeFloat (sgn : Bool) (e m1 m0 : Nat) : List UInt8 :=
  let cvt := cvtTable sgn
  let (first, mt) := topPair m1
  let behind :=
    if m0 = 0 then lastLongword cvt 5 mt
    else
      let mx := m0 / (MANT_HI / 10)
      let mt := mt + mx * 10
      let mw := (m0 - mx * (MANT_HI / 10)) * 10
      if mw = 0 then lastLongword cvt 5 mt
      else convertPairs cvt 4 mt ++ lastLongword cvt 5 mw
  finishNumber sgn (exponentByte sgn (e + SUBSCRIPT_BIAS - MV_XBIAS) :: cvt first :: behind)

/-- The key bytes of a number. -/
def encodeNumber (v : Mval) : List UInt8 :=
  if v.mvtype.int then encodeInteger v.m1
  else encodeFloat v.sgn v.e v.m1.toNat v.m0.toNat

/-! ## Strings -/

/-- Copy the characters; each escape takes one of the available bytes. -/
def escapeString (avail_bytes : Int) : List UInt8 → Except RtsError (List UInt8)
  | [] => .ok []
  | ch :: rest =>
    if ch ≤ 1 then
      if avail_bytes - 1 < 0 then .error .gvsuboflow
      else do
        let after ← escapeString (avail_bytes - 1) rest
        return STR_SUB_ESCAPE :: (ch + 1) :: after
    else do
      let after ← escapeString avail_bytes rest
      return ch :: after

/-- The key bytes of a string. -/
def encodeString (out_key : GvKey) (std_null_coll : Bool) (bytes : List UInt8) :
    Except RtsError (List UInt8) :=
  let avail_bytes : Int := out_key.top - (out_key.end_ + bytes.length + 3)
  if avail_bytes < 0 then .error .gvsuboflow
  else if bytes = [] then
    .ok [if std_null_coll then SUBSCRIPT_STDCOL_NULL else STR_SUB_PREFIX]
  else do
    let escaped ← escapeString avail_bytes bytes
    return STR_SUB_PREFIX :: escaped

/-! ## The routine -/

/-- `ALLDONE`: write the subscript at the end of the key and terminate it. -/
def appendSubscript (out_key : GvKey) (subscript : List UInt8) : Except RtsError GvKey :=
  let key : GvKey :=
    { out_key with
      base := out_key.base.take out_key.end_ ++ (subscript ++ [KEY_DELIMITER, KEY_DELIMITER])
      prev := out_key.end_
      end_ := out_key.end_ + subscript.length + 1 }
  if (key.top : Int) - key.end_ < MAX_GVKEY_PADDING_LEN + 1 then .error .gvsuboflow else .ok key

/-- Decide between number and string: the value with its flags settled, and
whether it is a string. -/
def settleType (env : SubscEnv) (in_val : Mval) (approx : Bool) :
    Except RtsError (Mval × Bool) :=
  if in_val.mvtype.nm = false ∧ approx = false then
    if valIscan in_val then do
      let r ← s2n env.tg in_val
      return (r.u, r.u.mvtype.numApprox)
    else
      let mvtype := in_val.mvtype
      .ok ({ in_val with mvtype := { mvtype with numApprox := true } }, true)
  else .ok (in_val, approx)

/-- The bytes of one subscript. -/
def subscriptBytes (env : SubscEnv) (in_val : Mval) (isString : Bool) (out_key : GvKey)
    (std_null_coll : Bool) : Except RtsError (List UInt8) :=
  if isString then do
    let bytes ←
      match env.gv_target.collseq with
      | some collseq => if env.transform then collseq.xform in_val.str else .ok in_val.str
      | none => .ok in_val.str
    encodeString out_key std_null_coll bytes
  else .ok (encodeNumber in_val)

/-- Append one subscript to the key. -/
def mval2subsc (env : SubscEnv) (in_val : Mval) (out_key : GvKey) (std_null_coll : Bool) :
    Except RtsError (Mval × GvKey) :=
  let asString := env.transform && env.gv_target.nct
  let in_val := if asString then mvForceStr in_val else in_val
  if in_val.mvtype.sqlnull then .error .zysqlnullnotvalid
  else do
    let (in_val, isString) ← settleType env in_val (asString || in_val.mvtype.numApprox)
    let subscript ← subscriptBytes env in_val isString out_key std_null_coll
    let key ← appendSubscript out_key subscript
    return (in_val, key)

end Ydb
