import Mathlib.Tactic.IntervalCases
import Mathlib.Tactic.Ring
import Mathlib.Tactic.Linarith
import Mathlib.Algebra.Order.Field.Rat
import Mathlib.Data.Rat.Cast.Order

/-!
# M values

The part of an `mval` that numeric conversion, subscript encoding and printing
read and write. A number has one of two internal forms. An `MV_INT` value keeps
its thousandfold multiple in `m[1]`; every other number keeps eighteen
significant digits, nine in `m[1]` and nine in `m[0]`, beside a biased decimal
exponent and a sign bit. The two machine words are mathematical integers here:
every value stored in them stays below `MANT_HI` in magnitude.
-/

namespace Ydb

/-- The bits of `mvtype` that the modelled routines test or set. -/
structure MvType where
  /-- `MV_NM`: the numeric fields are valid. -/
  nm : Bool
  /-- `MV_INT`: the number is held as an integer number of thousandths. -/
  int : Bool
  /-- `MV_STR`: the string is valid. -/
  str : Bool
  /-- `MV_NUM_APPROX`: the string is not the canonical form of the number. -/
  numApprox : Bool
  /-- `MV_SQLNULL`: the value is `$ZYSQLNULL`. -/
  sqlnull : Bool
deriving DecidableEq, Repr

/-- The fields of `mval`. `sgn` is true for a negative number. -/
structure Mval where
  mvtype : MvType
  sgn : Bool
  e : Nat
  m0 : Int
  m1 : Int
  str : List UInt8
deriving DecidableEq, Repr

/-- Bias of the decimal exponent of a float. -/
def MV_XBIAS : Nat := 62
/-- An `MV_INT` value counts units of one `MV_BIAS`-th. -/
def MV_BIAS : Nat := 1000
def MV_BIAS_PWR : Nat := 3
/-- Smallest biased exponent of a float. -/
def EXPLO : Nat := 20
/-- Least biased exponent that is too large. -/
def EXPHI : Nat := 110
/-- Biased exponent of a number that fills the high word. -/
def EXP_IDX_BIAL : Nat := 9 + MV_XBIAS
def MANT_LO : Nat := 100000000
def MANT_HI : Nat := 1000000000
def NUM_DEC_DG_1L : Nat := 9
def NUM_DEC_DG_2L : Nat := 18
def MAX_DIGITS_IN_INT : Nat := 10
def MAX_DIGITS_IN_EXP : Nat := 2

/-- The table of powers of ten that fit in one machine word. -/
def ten_pwr (n : Nat) : Nat :=
  [1, 10, 100, 1000, 10000, 100000, 1000000, 10000000, 100000000, 1000000000].getD n 0

theorem ten_pwr_eq (n : Nat) (inside : n ≤ 9) : ten_pwr n = 10 ^ n := by
  interval_cases n <;> rfl

/-! ## ASCII bytes -/

namespace Ascii

abbrev zero : UInt8 := 0x30
abbrev nine : UInt8 := 0x39
abbrev minus : UInt8 := 0x2d
abbrev plus : UInt8 := 0x2b
abbrev dot : UInt8 := 0x2e
abbrev upperE : UInt8 := 0x45

end Ascii

/-- The `DIGIT` test. -/
def isDigit (c : UInt8) : Bool := Ascii.zero ≤ c && c ≤ Ascii.nine

/-- The character for a decimal digit, `d + '0'`. -/
def digitByte (d : Nat) : UInt8 := UInt8.ofNat (d + 48)

/-- The value of a digit character, `c - '0'`. -/
def digitVal (c : UInt8) : Nat := c.toNat - 48

theorem digitVal_digitByte (d : Nat) (small : d < 10) : digitVal (digitByte d) = d := by
  interval_cases d <;> rfl

theorem isDigit_digitByte (d : Nat) (small : d < 10) : isDigit (digitByte d) = true := by
  interval_cases d <;> rfl

theorem digitByte_eq_zero (d : Nat) (small : d < 10) : digitByte d = Ascii.zero ↔ d = 0 := by
  interval_cases d <;> decide

theorem isDigit_iff (c : UInt8) : isDigit c = true ↔ 48 ≤ c.toNat ∧ c.toNat ≤ 57 := by
  simp [isDigit, Ascii.zero, Ascii.nine, UInt8.le_iff_toNat_le]

theorem digitVal_lt (c : UInt8) (digit : isDigit c = true) : digitVal c < 10 := by
  have range := (isDigit_iff c).mp digit
  unfold digitVal
  omega

theorem digitByte_digitVal (c : UInt8) (digit : isDigit c = true) :
    digitByte (digitVal c) = c := by
  have range := (isDigit_iff c).mp digit
  unfold digitByte digitVal
  rw [Nat.sub_add_cancel range.1, UInt8.ofNat_toNat]

@[simp] theorem digitByte_zero : digitByte 0 = Ascii.zero := rfl
@[simp] theorem isDigit_dot : isDigit Ascii.dot = false := rfl
@[simp] theorem isDigit_zero : isDigit Ascii.zero = true := rfl

/-! ## Canonical numbers -/

/-- The number is held in `MV_INT` form. -/
structure Mval.IsInt (v : Mval) : Prop where
  nm : v.mvtype.nm = true
  int : v.mvtype.int = true
  small : v.m1.natAbs < MANT_HI

/-- The number is held in float form, normalised and within the exponent range. -/
structure Mval.IsFloat (v : Mval) : Prop where
  nm : v.mvtype.nm = true
  int : v.mvtype.int = false
  m1_lo : MANT_LO ≤ v.m1
  m1_hi : v.m1 < MANT_HI
  m0_lo : 0 ≤ v.m0
  m0_hi : v.m0 < MANT_HI
  e_lo : EXPLO ≤ v.e
  e_hi : v.e < EXPHI

/-- The factor of a sign bit. -/
def signFactor : Bool → ℚ
  | true => -1
  | false => 1

/-- The number a valid numeric form denotes. -/
def Mval.value (v : Mval) : ℚ :=
  if v.mvtype.int then v.m1 / MV_BIAS
  else signFactor v.sgn * (v.m1 * MANT_HI + v.m0) * 10 ^ ((v.e : ℤ) - MV_XBIAS - 18)

/-- Some `MV_INT` value denotes the same number. -/
def Mval.IntRepresentable (v : Mval) : Prop :=
  ∃ m : ℤ, m.natAbs < MANT_HI ∧ v.value = m / MV_BIAS

/-- A canonical number: an `MV_INT` value, or a float that no `MV_INT` value denotes. -/
def Mval.Canonical (v : Mval) : Prop := v.IsInt ∨ (v.IsFloat ∧ ¬ v.IntRepresentable)

end Ydb
