import Mathlib.Algebra.Order.Field.Rat
import Mathlib.Algebra.Order.Floor.Semifield
import Mathlib.Data.Nat.Digits.Lemmas
import Mathlib.Data.Rat.Floor
import Mathlib.Tactic.FieldSimp
import Mathlib.Tactic.NormNum
import Ydb.Lib.Digits

/-!
# The digits of a fraction

Long division writes a proper fraction `x / m` one digit at a time, and keeps a remainder.
A number rounded to a count of fractional digits is a whole number of units of the last
place; half a unit is rounded away from zero.
-/

namespace Ydb.Lib

variable {b m x : Nat}

/-- The first `n` digits of `x / m` behind the point. -/
def fractionDigits (b m x n : Nat) : List Nat := digits b n (x * b ^ n / m)

@[simp] theorem fractionDigits_length (b m x n : Nat) : (fractionDigits b m x n).length = n :=
  digits_length b n _

@[simp] theorem fractionDigits_none (b m x : Nat) : fractionDigits b m x 0 = [] := rfl

theorem digits_zero (b n : Nat) : digits b n 0 = List.replicate n 0 := by
  induction n with
  | zero => rfl
  | succ n ih =>
    rw [digits, ih, Nat.zero_div, Nat.zero_mod, List.replicate_succ]

@[simp] theorem fractionDigits_zero (b m n : Nat) : fractionDigits b m 0 n = List.replicate n 0 := by
  rw [fractionDigits, Nat.zero_mul, Nat.zero_div, digits_zero]

/-- Only the units count in digits from the point on. -/
theorem digits_add_mul (b n x y : Nat) : digits b n (x + b ^ n * y) = digits b n x := by
  rw [← digits_mod b n (x + b ^ n * y) n le_rfl, Nat.add_mul_mod_self_left, digits_mod b n x n le_rfl]

/-- The remainder has the digits that follow. -/
theorem fractionDigits_remainder (some : 0 < m) (x n k : Nat) :
    digits b k (x * b ^ (n + k) / m) = fractionDigits b m (x * b ^ n % m) k := by
  have division := Nat.div_add_mod (x * b ^ n) m
  have product : x * b ^ (n + k) = x * b ^ n % m * b ^ k + m * (b ^ k * (x * b ^ n / m)) := by
    calc
      x * b ^ (n + k) = x * b ^ n * b ^ k := by rw [Nat.pow_add, Nat.mul_assoc]
      _ = (m * (x * b ^ n / m) + x * b ^ n % m) * b ^ k := by rw [division]
      _ = x * b ^ n % m * b ^ k + m * (b ^ k * (x * b ^ n / m)) := by ring
  rw [fractionDigits, product, Nat.add_mul_div_left _ _ some, digits_add_mul]

theorem fractionDigits_add (base : 0 < b) (some : 0 < m) (x n k : Nat) :
    fractionDigits b m x (n + k) = fractionDigits b m x n ++ fractionDigits b m (x * b ^ n % m) k := by
  have first : x * b ^ (n + k) / m / b ^ k = x * b ^ n / m := by
    rw [Nat.div_right_comm, Nat.pow_add, ← Nat.mul_assoc, Nat.mul_div_cancel _ (Nat.pow_pos base)]
  rw [← fractionDigits_remainder some, fractionDigits, digits_add, first]
  rfl

/-- One step of the division. -/
theorem fractionDigits_succ (base : 0 < b) (some : 0 < m) (proper : x < m) (n : Nat) :
    fractionDigits b m x (n + 1) = x * b / m :: fractionDigits b m (x * b % m) n := by
  have digit : x * b / m < b := by
    rw [Nat.div_lt_iff_lt_mul some, Nat.mul_comm b]
    exact Nat.mul_lt_mul_of_pos_right proper base
  have one : fractionDigits b m x 1 = [x * b / m] := by
    rw [fractionDigits, Nat.pow_one, digits, digits, Nat.pow_zero, Nat.div_one, Nat.mod_eq_of_lt digit]
  rw [Nat.add_comm, fractionDigits_add base some, one, Nat.pow_one]
  rfl

/-- A common factor does not change the digits. -/
theorem fractionDigits_mul {k : Nat} (some : 0 < k) (b m x n : Nat) :
    fractionDigits b (m * k) (x * k) n = fractionDigits b m x n := by
  rw [fractionDigits, fractionDigits, Nat.mul_right_comm, Nat.mul_div_mul_right _ _ some]

/-! ## Numerals -/

/-- The digits of a number, without leading zeros; zero has a digit. -/
def numeral (b n : Nat) : List Nat := if n = 0 then [0] else (Nat.digits b n).reverse

theorem reverse_digits (base : 1 < b) {k n : Nat} (lo : b ^ k ≤ n) (hi : n < b ^ (k + 1)) :
    (Nat.digits b n).reverse = digits b (k + 1) n := by
  induction k generalizing n with
  | zero =>
    rw [Nat.zero_add, Nat.pow_one] at hi
    have positive : n ≠ 0 := Nat.ne_of_gt lo
    rw [Nat.digits_of_lt b n positive hi, digits, digits, Nat.pow_zero, Nat.div_one, Nat.mod_eq_of_lt hi]
    rfl
  | succ k ih =>
    have positive : 0 < n := Nat.lt_of_lt_of_le (Nat.pow_pos (Nat.zero_lt_of_lt base)) lo
    have lo' : b ^ k ≤ n / b := by
      rw [Nat.le_div_iff_mul_le (Nat.zero_lt_of_lt base), ← Nat.pow_succ]
      exact lo
    have hi' : n / b < b ^ (k + 1) := by
      rw [Nat.div_lt_iff_lt_mul (Nat.zero_lt_of_lt base), ← Nat.pow_succ]
      exact hi
    rw [Nat.digits_def' base positive, List.reverse_cons, ih lo' hi', digits_snoc b (k + 1)]

/-- A number of `k + 1` digits. -/
theorem numeral_eq (base : 1 < b) {k n : Nat} (lo : b ^ k ≤ n) (hi : n < b ^ (k + 1)) :
    numeral b n = digits b (k + 1) n := by
  have positive : n ≠ 0 := Nat.ne_of_gt (Nat.lt_of_lt_of_le (Nat.pow_pos (Nat.zero_lt_of_lt base)) lo)
  rw [numeral, if_neg positive, reverse_digits base lo hi]

theorem numeral_length_le (base : 1 < b) {k n : Nat} (hi : n < b ^ (k + 1)) :
    (numeral b n).length ≤ k + 1 := by
  unfold numeral
  split
  · exact Nat.succ_le_succ (Nat.zero_le k)
  · rw [List.length_reverse]
    exact (Nat.digits_length_le_iff base n).mpr hi

/-! ## Rounding -/

/-- The magnitude of a number rounded to `n` fractional digits, in units of the last place.
Half a unit is rounded away from zero. -/
def roundedUnits (b n : Nat) (q : ℚ) : Nat := ⌊|q| * b ^ n + 1 / 2⌋₊

/-- A magnitude of `x` parts, where a unit has `2 * h` parts. -/
theorem roundedUnits_eq {n h : Nat} {q : ℚ} (some : 0 < h) (parts : |q| * b ^ n = x / (2 * h)) :
    roundedUnits b n q = (x + h) / (2 * h) := by
  have positive : (h : ℚ) ≠ 0 := Nat.cast_ne_zero.mpr (Nat.ne_of_gt some)
  have sum : |q| * b ^ n + 1 / 2 = ((x + h : Nat) : ℚ) / ((2 * h : Nat) : ℚ) := by
    rw [parts]
    push_cast
    field_simp
  rw [roundedUnits, sum, Nat.floor_div_eq_div]

/-- A whole number of units is not changed. -/
theorem roundedUnits_of_whole {n : Nat} {q : ℚ} (whole : |q| * b ^ n = x) : roundedUnits b n q = x := by
  have parts : |q| * (b : ℚ) ^ n = ((2 * x : Nat) : ℚ) / (2 * (1 : Nat)) := by
    rw [whole]
    push_cast
    ring
  rw [roundedUnits_eq Nat.one_pos parts]
  omega

theorem roundedUnits_le {n k : Nat} {q : ℚ} (bounded : |q| ≤ b ^ k) : roundedUnits b n q ≤ b ^ k * b ^ n := by
  have product : |q| * (b : ℚ) ^ n ≤ ((b ^ k * b ^ n : Nat) : ℚ) := by
    push_cast
    exact mul_le_mul_of_nonneg_right bounded (by positivity)
  apply Nat.le_of_lt_succ
  rw [roundedUnits, Nat.floor_lt (by positivity)]
  push_cast at product ⊢
  linarith

end Ydb.Lib
