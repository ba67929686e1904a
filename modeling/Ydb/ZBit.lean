import Mathlib.Data.List.Basic

/-!
# Strings of bits

The first byte of a string of bits is the number of bits of the last byte that do not belong
to it; the first bit is the most significant one of the second byte. A read outside an
operand and a write outside the area reserved for a result are faults.
-/

namespace Ydb.ZBit

/-! ## Memory -/

/-- Why a bit string is refused, or a read fails. -/
inductive ZBitFault where
  | ERR_INVBITSTR
  | ERR_INVBITPOS
  | outside
deriving DecidableEq

def MAX_STRLEN : Nat := 1024 * 1024

/-- Read a byte inside of the string. -/
def readByte (s : List UInt8) (i : Nat) : Except ZBitFault UInt8 :=
  match s[i]? with
  | some byte => .ok byte
  | none => .error .outside

/-- Write a byte inside of the area. -/
def writeByte (area : List UInt8) (i : Nat) (byte : UInt8) : Except ZBitFault (List UInt8) :=
  if i < area.length then .ok (area.set i byte) else .error .outside

/-- So many bytes of the string pool, whatever they hold. -/
def ENSURE_STP_FREE_SPACE (stp : Nat → UInt8) (n : Int) : List UInt8 := (List.range n.toNat).map stp

/-- Write the byte of each position from `i` on, for so many turns. -/
def fillBytes (byte : Nat → Except ZBitFault UInt8) (area : List UInt8) (i : Nat) :
    Nat → Except ZBitFault (List UInt8)
  | 0 => .ok area
  | turns + 1 => do
    let b ← byte i
    let area ← writeByte area i b
    fillBytes byte area (i + 1) turns

/-- The length of a string in bits, with those that do not belong to it. -/
def strLen (s : List UInt8) : Int := ((s.length : Int) - 1) * 8

/-- The number of bits of a string that do not belong to it. -/
def checkBitstr (s : List UInt8) : Except ZBitFault UInt8 :=
  if s.length = 0 then .error .ERR_INVBITSTR
  else do
    let byte_len ← readByte s 0
    if 7 < byte_len then .error .ERR_INVBITSTR else .ok byte_len

/-! ## Combining strings -/

/-- The byte that two operands combine to. -/
def combineAt (f : UInt8 → UInt8 → UInt8) (s1 s2 : List UInt8) (i : Nat) : Except ZBitFault UInt8 := do
  let byte1_n ← readByte s1 i
  let byte2_n ← readByte s2 i
  .ok (f byte1_n byte2_n)

/-- The part that `op_fnzbitand` and `op_fnzbitxor` share. -/
def combineShorter (stp : Nat → UInt8) (f : UInt8 → UInt8 → UInt8) (s1 s2 : List UInt8) :
    Except ZBitFault (List UInt8) := do
  let byte1_len ← checkBitstr s1
  let byte2_len ← checkBitstr s2
  let len1 := strLen s1 - byte1_len.toNat
  let len2 := strLen s2 - byte2_len.toNat
  let new_str_len := if len1 > len2 then len2 else len1
  let n := (new_str_len + 7).tdiv 8
  let area := ENSURE_STP_FREE_SPACE stp (n + 1)
  let area ← writeByte area 0 (UInt8.ofInt (n * 8 - new_str_len))
  fillBytes (combineAt f s1 s2) area 1 n.toNat

/-- $ZBITAND. -/
def op_fnzbitand (stp : Nat → UInt8) (s1 s2 : List UInt8) : Except ZBitFault (List UInt8) :=
  combineShorter stp (· &&& ·) s1 s2

/-- Clears the bits that do not belong to a string, from the number of them. -/
def paddingMask : List UInt8 := [0xFF, 0xFE, 0xFC, 0xF8, 0xF0, 0xE0, 0xC0, 0x80]

/-- $ZBITXOR. -/
def op_fnzbitxor (stp : Nat → UInt8) (s1 s2 : List UInt8) : Except ZBitFault (List UInt8) := do
  let area ← combineShorter stp (· ^^^ ·) s1 s2
  let byte_1 ← readByte area 0
  let byte_n ← readByte area (area.length - 1)
  writeByte area (area.length - 1) (byte_n &&& paddingMask.getD byte_1.toNat 0)

/-- $ZBITOR. -/
def op_fnzbitor (stp : Nat → UInt8) (s1 s2 : List UInt8) : Except ZBitFault (List UInt8) := do
  let byte1_len ← checkBitstr s1
  let byte2_len ← checkBitstr s2
  let str_len1 := s1.length - 1
  let str_len2 := s2.length - 1
  let short1 : Bool := strLen s1 - byte1_len.toNat < strLen s2 - byte2_len.toNat
  let n := if short1 then str_len2 else str_len1
  let n0 := if short1 then str_len1 else str_len2
  let area := ENSURE_STP_FREE_SPACE stp (n + 1)
  let area ← writeByte area 0 (if short1 then byte2_len else byte1_len)
  let area ← fillBytes (combineAt (· ||| ·) s1 s2) area 1 n0
  if n ≠ n0 then fillBytes (readByte (if short1 then s2 else s1)) area (1 + n0) (n - n0) else .ok area

/-- The byte of a complement. -/
def complementAt (s : List UInt8) (i : Nat) : Except ZBitFault UInt8 := do
  let byte_n ← readByte s i
  .ok (~~~byte_n)

/-- $ZBITNOT. -/
def op_fnzbitnot (stp : Nat → UInt8) (s : List UInt8) : Except ZBitFault (List UInt8) := do
  let byte_len ← checkBitstr s
  let area ← writeByte (ENSURE_STP_FREE_SPACE stp s.length) 0 byte_len
  -- the last turn is at the position behind both the operand and the area
  fillBytes (complementAt s) area 1 s.length

/-! ## Single bits -/

/-- The masks by position, modulo 8. -/
def setMask : List UInt8 := [1, 128, 64, 32, 16, 8, 4, 2]

/-- $ZBITSET. -/
def op_fnzbitset (stp : Nat → UInt8) (s : List UInt8) (pos truthval : Int) :
    Except ZBitFault (List UInt8) := do
  let byte_len ← checkBitstr s
  if 1 > pos ∨ pos > strLen s - byte_len.toNat then .error .ERR_INVBITPOS
  else do
    let area ← fillBytes (readByte s) (ENSURE_STP_FREE_SPACE stp s.length) 0 s.length
    let np := (pos + 7).tdiv 8 - 1
    let mp := pos.tmod 8
    let byte_1 ← readByte s (np + 1).toNat
    let bit := setMask.getD mp.toNat 0
    writeByte area (np + 1).toNat (if truthval ≠ 0 then byte_1 ||| bit else byte_1 &&& ~~~bit)

/-- $ZBITGET. -/
def op_fnzbitget (s : List UInt8) (pos : Int) : Except ZBitFault Int := do
  let byte_len ← checkBitstr s
  if 1 > pos ∨ pos > strLen s - byte_len.toNat then .error .ERR_INVBITPOS
  else do
    let np := (pos + 7).tdiv 8 - 1
    let mp := if pos.tmod 8 = 0 then 8 else pos.tmod 8
    let byte_n ← readByte s (np + 1).toNat
    let byte_n := byte_n <<< UInt8.ofInt (mp - 1)
    .ok (byte_n >>> 7).toNat

/-! ## Counting and finding -/

/-- The masks from the left. -/
def bitMask : List UInt8 := [128, 64, 32, 16, 8, 4, 2, 1]

/-- Whether a bit of a byte is set. -/
def bitSet (byte : UInt8) (i : Nat) : Bool := byte &&& bitMask.getD i 0 ≠ 0

/-- Count the bits of one byte from `i` on. -/
def countBits (s : List UInt8) (byte_n i : Nat) : Nat → Int → Except ZBitFault Int
  | 0, bit_count => .ok bit_count
  | turns + 1, bit_count => do
    let byte ← readByte s byte_n
    countBits s byte_n (i + 1) turns (if bitSet byte i then bit_count + 1 else bit_count)

/-- Count the bits of whole bytes. -/
def countBytes (s : List UInt8) (byte_n : Nat) : Nat → Int → Except ZBitFault Int
  | 0, bit_count => .ok bit_count
  | turns + 1, bit_count => do
    let bit_count ← countBits s byte_n 0 8 bit_count
    countBytes s (byte_n + 1) turns bit_count

/-- The index of the last byte, counted from zero, and the number of its bits. -/
def lastByte (len : Int) : Int × Int :=
  ((len + 7).tdiv 8 - 1, if len.tmod 8 = 0 then 8 else len.tmod 8)

/-- $ZBITCOUNT. -/
def op_fnzbitcoun (s : List UInt8) : Except ZBitFault Int := do
  let byte_len ← checkBitstr s
  let (n, m) := lastByte (strLen s - byte_len.toNat)
  let bit_count ← countBytes s 1 n.toNat 0
  countBits s (1 + n.toNat) 0 m.toNat bit_count

/-- Find a bit of one byte from `i` on. The two branches of the source differ in the test only. -/
def findBits (s : List UInt8) (truthval : Int) (byte_n i : Nat) : Nat → Except ZBitFault (Option Nat)
  | 0 => .ok none
  | turns + 1 => do
    let byte ← readByte s byte_n
    if bitSet byte i = decide (truthval ≠ 0) then .ok (some i) else findBits s truthval byte_n (i + 1) turns

/-- Find a bit of whole bytes: the byte and the bit. -/
def findBytes (s : List UInt8) (truthval : Int) (byte_n : Nat) : Nat → Except ZBitFault (Option (Nat × Nat))
  | 0 => .ok none
  | turns + 1 => do
    match ← findBits s truthval byte_n 0 8 with
    | some i => .ok (some (byte_n, i))
    | none => findBytes s truthval (byte_n + 1) turns

/-- The search behind the byte of the position. -/
def findBehind (s : List UInt8) (truthval n m np : Int) : Except ZBitFault Int := do
  match ← findBytes s truthval (np.toNat + 1) (n - np).toNat with
  | some (byte_n, i) => .ok (i + 2 + (byte_n - 1) * 8)
  | none =>
    match ← findBits s truthval (np.toNat + (n - np).toNat + 1) 0 m.toNat with
    | some i => .ok (i + 2 + n * 8)
    | none => .ok 0

/-- The search from a position that is in the string, or is 1. -/
def findFrom (s : List UInt8) (truthval len pos : Int) : Except ZBitFault Int := do
  let np := (pos + 7).tdiv 8
  let mp := if pos.tmod 8 = 0 then 8 else pos.tmod 8
  let (n, m) := lastByte len
  let i1 := if np = n + 1 then m else 8
  match ← findBits s truthval np.toNat (mp - 1).toNat (i1 - (mp - 1)).toNat with
  | some i => .ok (i + 2 + (np - 1) * 8)
  | none => if np = n + 1 then .ok 0 else findBehind s truthval n m np

/-- $ZBITFIND. -/
def op_fnzbitfind (s : List UInt8) (truthval pos : Int) : Except ZBitFault Int := do
  let byte_len ← checkBitstr s
  if pos < 1 then findFrom s truthval (strLen s - byte_len.toNat) 1
  else if pos > strLen s - byte_len.toNat then .ok 0
  else findFrom s truthval (strLen s - byte_len.toNat) pos

end Ydb.ZBit
