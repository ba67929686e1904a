import Ydb.Lib.Digits
import Ydb.Mval

/-!
# Decimal numbers of eighteen significant digits

A nonzero decimal is a sign, eighteen digits whose first is not zero, and the
exponent that places the point: the denoted number is the digit string read
after a decimal point, times that power of ten. Each nonzero number has one such
form. Its text omits trailing zeros of the fraction and a leading zero before
the point, as the canonical form of an M number does.

Both numeric forms of an `mval` are read into this one form. The routines that
print, scan, encode and decode numbers are related to it rather than to each
other.
-/

namespace Ydb

open Lib

/-- A nonzero number of at most eighteen significant digits. -/
structure Decimal where
  neg : Bool
  exp : Int
  mant : Nat
  lo : 10 ^ 17 ≤ mant
  hi : mant < 10 ^ 18

namespace Decimal

theorem ext {c d : Decimal} (neg : c.neg = d.neg) (exp : c.exp = d.exp)
    (mant : c.mant = d.mant) : c = d := by
  cases c
  cases d
  simp_all

/-- The exponent range of a float. -/
def InRange (d : Decimal) : Prop := -42 ≤ d.exp ∧ d.exp < 48

/-- The number a decimal denotes. -/
def value (d : Decimal) : ℚ := signFactor d.neg * (d.mant * 10 ^ (d.exp - 18))

/-- The significant digits, without trailing zeros. -/
def significant (d : Decimal) : List Nat := stripZeros (digits 10 18 d.mant)

/-- The digits after the sign and the leading zeros of a fraction. The point
goes before the digit reached with exponent zero, and an integer that runs out
of digits is filled with zeros. -/
def layout : Int → List Nat → List UInt8
  | exp, [] => List.replicate exp.toNat Ascii.zero
  | exp, d :: rest =>
    if exp = 0 then Ascii.dot :: digitByte d :: layout (exp - 1) rest
    else digitByte d :: layout (exp - 1) rest

/-- The point and zeros that open a number below one tenth. -/
def opening (exp : Int) : List UInt8 :=
  if exp < 0 then Ascii.dot :: List.replicate (-exp).toNat Ascii.zero else []

def signText (neg : Bool) : List UInt8 := if neg then [Ascii.minus] else []

/-- The canonical text of a decimal. -/
def text (d : Decimal) : List UInt8 :=
  signText d.neg ++ (opening d.exp ++ layout d.exp d.significant)

/-! ## Significant digits -/

theorem digits_head (d : Decimal) : ∃ first rest, digits 10 18 d.mant = first :: rest ∧
    first ≠ 0 ∧ first < 10 := by
  refine ⟨d.mant / 10 ^ 17 % 10, digits 10 17 d.mant, rfl, ?_, Nat.mod_lt _ (by decide)⟩
  have lo := d.lo
  have hi := d.hi
  have quotient : d.mant / 10 ^ 17 < 10 := by omega
  have positive : 0 < d.mant / 10 ^ 17 := by omega
  rw [Nat.mod_eq_of_lt quotient]
  omega

/-- The first significant digit is not zero. -/
theorem significant_head (d : Decimal) : ∃ first rest, d.significant = first :: rest ∧
    first ≠ 0 := by
  obtain ⟨first, rest, same, nonzero, _⟩ := d.digits_head
  refine ⟨first, stripZeros rest, ?_, nonzero⟩
  rw [significant, same, stripZeros_cons_of_ne first rest nonzero]

theorem significant_ne_nil (d : Decimal) : d.significant ≠ [] := by
  obtain ⟨first, rest, same, _⟩ := d.significant_head
  rw [same]
  exact List.cons_ne_nil _ _

/-- The last significant digit is not zero. -/
theorem significant_last (d : Decimal) : ∃ kept last, d.significant = kept ++ [last] ∧
    last ≠ 0 := by
  rcases stripZeros_last (digits 10 18 d.mant) with vacant | ⟨kept, last, nonzero, same⟩
  · exact absurd vacant d.significant_ne_nil
  · exact ⟨kept, last, same, nonzero⟩

theorem significant_lt (d : Decimal) : ∀ digit ∈ d.significant, digit < 10 :=
  fun digit member => digits_lt 10 18 d.mant (by decide) digit (stripZeros_subset _ digit member)

theorem significant_length (d : Decimal) : d.significant.length ≤ 18 := by
  have bound := stripZeros_length_le (digits 10 18 d.mant)
  rwa [digits_length] at bound

/-- The mantissa is the significant digits padded to eighteen. -/
theorem mant_eq (d : Decimal) :
    d.mant = evalFrom 10 0 d.significant * 10 ^ (18 - d.significant.length) := by
  obtain ⟨n, same⟩ := stripZeros_restore (digits 10 18 d.mant)
  have read : evalFrom 10 0 (digits 10 18 d.mant) = d.mant := by
    rw [evalFrom_digits, Nat.mod_eq_of_lt d.hi]
    simp
  have width : n = 18 - d.significant.length := by
    have total := congrArg List.length same
    rw [digits_length, List.length_append, List.length_replicate] at total
    unfold significant
    omega
  rw [same, evalFrom_append, evalFrom_replicate_zero] at read
  rw [← width]
  exact read.symm

/-- Digits with nonzero ends are the significant digits of one mantissa. -/
theorem exists_of_significant (neg : Bool) (exp : Int) (ds : List Nat)
    (bounded : ∀ d ∈ ds, d < 10) (fits : ds.length ≤ 18)
    (head : ∃ first rest, ds = first :: rest ∧ first ≠ 0)
    (last : ∃ kept final, ds = kept ++ [final] ∧ final ≠ 0) :
    ∃ d : Decimal, d.neg = neg ∧ d.exp = exp ∧ d.significant = ds := by
  have padded : digits 10 18 (evalFrom 10 0 ds * 10 ^ (18 - ds.length)) =
      ds ++ List.replicate (18 - ds.length) 0 := by
    conv_lhs => rw [show 18 = ds.length + (18 - ds.length) by omega]
    rw [show ds.length + (18 - ds.length) - ds.length = 18 - ds.length by omega,
      digits_shift _ _ _ _ (by decide), digits_evalFrom 10 ds bounded]
  have stripped : stripZeros ds = ds := by
    obtain ⟨kept, final, rfl, nonzero⟩ := last
    exact stripZeros_concat kept final nonzero
  have below : evalFrom 10 0 ds * 10 ^ (18 - ds.length) < 10 ^ 18 := by
    have small := evalFrom_lt 10 ds bounded
    calc evalFrom 10 0 ds * 10 ^ (18 - ds.length)
        < 10 ^ ds.length * 10 ^ (18 - ds.length) :=
          Nat.mul_lt_mul_of_pos_right small (Nat.pow_pos (by decide))
      _ = 10 ^ 18 := by rw [← Nat.pow_add]; congr 1; omega
  have above : 10 ^ 17 ≤ evalFrom 10 0 ds * 10 ^ (18 - ds.length) := by
    obtain ⟨first, rest, rfl, nonzero⟩ := head
    have leading : digits 10 18 (evalFrom 10 0 (first :: rest) *
        10 ^ (18 - (first :: rest).length)) = first :: (rest ++
          List.replicate (18 - (first :: rest).length) 0) := padded
    rw [digits] at leading
    have quotient := (List.cons.inj leading).1
    by_contra small
    rw [Nat.div_eq_of_lt (by omega)] at quotient
    exact nonzero quotient.symm
  refine ⟨⟨neg, exp, _, above, below⟩, rfl, rfl, ?_⟩
  rw [significant, padded, stripZeros_append_replicate, stripped]

/-! ## Order -/

theorem value_abs_bounds (d : Decimal) :
    (10 : ℚ) ^ (d.exp - 1) ≤ d.mant * 10 ^ (d.exp - 18) ∧
      (d.mant : ℚ) * 10 ^ (d.exp - 18) < 10 ^ d.exp := by
  have scale : (0 : ℚ) < 10 ^ (d.exp - 18) := zpow_pos (by norm_num) _
  have lo : ((10 : ℚ) ^ (17 : ℕ)) ≤ d.mant := by exact_mod_cast d.lo
  have hi : (d.mant : ℚ) < (10 : ℚ) ^ (18 : ℕ) := by exact_mod_cast d.hi
  constructor
  · calc (10 : ℚ) ^ (d.exp - 1) = 10 ^ (17 : ℕ) * 10 ^ (d.exp - 18) := by
          rw [← zpow_natCast, ← zpow_add₀ (by norm_num)]
          congr 1
          ring
      _ ≤ _ := mul_le_mul_of_nonneg_right lo (le_of_lt scale)
  · calc (d.mant : ℚ) * 10 ^ (d.exp - 18) < 10 ^ (18 : ℕ) * 10 ^ (d.exp - 18) :=
          mul_lt_mul_of_pos_right hi scale
      _ = 10 ^ d.exp := by
          rw [← zpow_natCast, ← zpow_add₀ (by norm_num)]
          congr 1
          ring

/-- Magnitudes are ordered by exponent first and mantissa second. -/
theorem magnitude_lt {c d : Decimal}
    (smaller : c.exp < d.exp ∨ (c.exp = d.exp ∧ c.mant < d.mant)) :
    (c.mant : ℚ) * 10 ^ (c.exp - 18) < d.mant * 10 ^ (d.exp - 18) := by
  rcases smaller with below | ⟨same, below⟩
  · calc (c.mant : ℚ) * 10 ^ (c.exp - 18) < 10 ^ c.exp := c.value_abs_bounds.2
      _ ≤ 10 ^ (d.exp - 1) := zpow_le_zpow_right₀ (by norm_num) (by omega)
      _ ≤ _ := d.value_abs_bounds.1
  · rw [same]
    exact mul_lt_mul_of_pos_right (by exact_mod_cast below) (zpow_pos (by norm_num) _)

theorem magnitude_pos (d : Decimal) : (0 : ℚ) < d.mant * 10 ^ (d.exp - 18) :=
  lt_of_lt_of_le (zpow_pos (by norm_num) _) d.value_abs_bounds.1

theorem neg_iff (d : Decimal) : d.neg = true ↔ d.value < 0 := by
  have positive := d.magnitude_pos
  unfold value signFactor
  cases d.neg <;> simp <;> linarith

theorem value_ne_zero (d : Decimal) : d.value ≠ 0 := by
  have positive := d.magnitude_pos
  unfold value
  cases d.neg <;> simp only [signFactor, ne_eq] <;> linarith

/-- Decimals are equal or ordered in magnitude. -/
theorem magnitude_cases (c d : Decimal) :
    (c.exp = d.exp ∧ c.mant = d.mant) ∨
      (c.exp < d.exp ∨ (c.exp = d.exp ∧ c.mant < d.mant)) ∨
      (d.exp < c.exp ∨ (d.exp = c.exp ∧ d.mant < c.mant)) := by
  omega

/-- The denoted number determines the decimal. -/
theorem value_injective {c d : Decimal} (same : c.value = d.value) : c = d := by
  have cPos := c.magnitude_pos
  have dPos := d.magnitude_pos
  unfold value at same
  have signs : c.neg = d.neg := by
    cases hc : c.neg <;> cases hd : d.neg <;> simp [hc, hd, signFactor] at same ⊢ <;> linarith
  have magnitudes : (c.mant : ℚ) * 10 ^ (c.exp - 18) = d.mant * 10 ^ (d.exp - 18) := by
    rw [signs] at same
    cases hd : d.neg <;> simp [hd, signFactor] at same <;> linarith
  rcases magnitude_cases c d with ⟨exps, mants⟩ | smaller | larger
  · exact ext signs exps mants
  · exact absurd magnitudes (ne_of_lt (magnitude_lt smaller))
  · exact absurd magnitudes (ne_of_gt (magnitude_lt larger))

end Decimal

end Ydb
