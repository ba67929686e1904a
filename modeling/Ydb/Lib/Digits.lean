import Mathlib.Data.List.Induction
import Mathlib.Tactic.Ring
import Mathlib.Algebra.Order.Ring.Nat
import Ydb.Lib.Divergence

/-!
# Fixed-width positional notation

`digits b n x` lists the `n` low-order base-`b` digits of `x`, the most
significant first. The width is explicit, so leading and trailing zeros are
ordinary digits; `stripZeros` removes the trailing ones. Digits can be peeled
from either end, regrouped into pairs, and read back, and equal-width digit
sequences diverge exactly as the numbers they denote are ordered.
-/

namespace Ydb.Lib

/-- The `n` low-order base-`b` digits of `x`, most significant first. -/
def digits (b : Nat) : Nat → Nat → List Nat
  | 0, _ => []
  | n + 1, x => x / b ^ n % b :: digits b n x

/-- Horner evaluation of a digit sequence above an already read value. -/
def evalFrom (b : Nat) : Nat → List Nat → Nat
  | acc, [] => acc
  | acc, d :: rest => evalFrom b (acc * b + d) rest

/-- Remove the zeros at the end of a digit sequence. -/
def stripZeros : List Nat → List Nat
  | [] => []
  | d :: rest =>
    match stripZeros rest with
    | [] => if d = 0 then [] else [d]
    | kept => d :: kept

@[simp] theorem digits_length (b n x : Nat) : (digits b n x).length = n := by
  induction n with
  | zero => rfl
  | succ n ih => simp [digits, ih]

theorem digits_lt (b n x : Nat) (positive : 0 < b) : ∀ d ∈ digits b n x, d < b := by
  induction n with
  | zero => simp [digits]
  | succ n ih =>
    intro d member
    rcases List.mem_cons.mp member with rfl | member
    · exact Nat.mod_lt _ positive
    · exact ih d member

/-- Peeling the least significant digit divides the number by the base. -/
theorem digits_snoc (b n x : Nat) : digits b (n + 1) x = digits b n (x / b) ++ [x % b] := by
  induction n with
  | zero => simp [digits]
  | succ n ih =>
    rw [digits, ih, digits, List.cons_append, Nat.div_div_eq_div_mul,
      ← Nat.pow_succ']

/-- Low-order digits do not see a multiple of the power above them. -/
theorem digits_mod (b n x k : Nat) (wide : n ≤ k) : digits b n (x % b ^ k) = digits b n x := by
  induction n with
  | zero => rfl
  | succ n ih =>
    have split : b ^ k = b ^ n * b ^ (k - n) := by
      rw [← Nat.pow_add]
      congr 1
      omega
    have lower : b ∣ b ^ (k - n) := dvd_pow_self b (by omega)
    have head : x % b ^ k / b ^ n % b = x / b ^ n % b := by
      rw [split, Nat.mod_mul_right_div_self]
      exact Nat.mod_mod_of_dvd _ lower
    rw [digits, digits, ih (by omega), head]

/-- Digits of a number split at any position into the digits of a quotient and
the remaining low-order digits. -/
theorem digits_add (b m n x : Nat) :
    digits b (m + n) x = digits b m (x / b ^ n) ++ digits b n x := by
  induction m with
  | zero => simp [digits]
  | succ m ih =>
    rw [Nat.succ_add, digits, digits, ih, List.cons_append,
      Nat.div_div_eq_div_mul, ← Nat.pow_add, Nat.add_comm n m]

/-- Shifting left by whole digits appends zeros. -/
theorem digits_shift (b n k x : Nat) (positive : 0 < b) :
    digits b (n + k) (x * b ^ k) = digits b n x ++ List.replicate k 0 := by
  have zeros : ∀ k y, digits b k (y * b ^ k) = List.replicate k 0 := by
    intro k
    induction k with
    | zero => intro y; rfl
    | succ k ih =>
      intro y
      have head : y * b ^ (k + 1) / b ^ k % b = 0 := by
        rw [Nat.pow_succ, ← Nat.mul_assoc, Nat.mul_right_comm,
          Nat.mul_div_cancel _ (Nat.pow_pos positive), Nat.mul_mod_left]
      rw [digits, head, Nat.pow_succ', ← Nat.mul_assoc, ih,
        List.replicate_succ]
  rw [digits_add, Nat.mul_div_cancel _ (Nat.pow_pos positive), zeros]

/-- A number composed of an upper and a lower part has the digits of both. -/
theorem digits_join (b m n x y : Nat) (small : y < b ^ n) :
    digits b (m + n) (x * b ^ n + y) = digits b m x ++ digits b n y := by
  have positive : 0 < b ^ n := by omega
  have upper : (x * b ^ n + y) / b ^ n = x := by
    rw [Nat.mul_comm, Nat.mul_add_div positive, Nat.div_eq_of_lt small, Nat.add_zero]
  have lower : (x * b ^ n + y) % b ^ n = y := by
    rw [Nat.mul_comm, Nat.mul_add_mod, Nat.mod_eq_of_lt small]
  rw [digits_add, upper, ← digits_mod b n (x * b ^ n + y) n le_rfl, lower]

/-- Pairs of base-`b` digits are the digits in base `b * b`. -/
theorem digits_pairs (b n x : Nat) :
    digits b (2 * n) x = (digits (b * b) n x).flatMap (fun p => [p / b, p % b]) := by
  induction n with
  | zero => rfl
  | succ n ih =>
    have even : (b * b) ^ n = b ^ (2 * n) := by rw [Nat.pow_mul, Nat.pow_two]
    have high : x / b ^ (2 * n + 1) % b = x / (b * b) ^ n % (b * b) / b := by
      rw [even, Nat.mod_mul_right_div_self, Nat.div_div_eq_div_mul, ← Nat.pow_succ]
    have low : x / b ^ (2 * n) % b = x / (b * b) ^ n % (b * b) % b := by
      rw [even, Nat.mod_mul_left_mod]
    rw [show 2 * (n + 1) = 2 * n + 1 + 1 by ring, digits, digits, digits, List.flatMap_cons,
      ih, high, low]
    rfl

/-- Reading digits above an accumulator shifts the accumulator. -/
theorem evalFrom_append (b acc : Nat) (left right : List Nat) :
    evalFrom b acc (left ++ right) = evalFrom b (evalFrom b acc left) right := by
  induction left generalizing acc with
  | nil => rfl
  | cons d rest ih => exact ih _

/-- What was read before is shifted by the digits that follow. -/
theorem evalFrom_acc (b acc : Nat) (ds : List Nat) :
    evalFrom b acc ds = acc * b ^ ds.length + evalFrom b 0 ds := by
  induction ds generalizing acc with
  | nil => simp [evalFrom]
  | cons d rest ih =>
    rw [evalFrom, evalFrom, ih, ih (0 * b + d), List.length_cons,
      Nat.pow_succ]
    ring

theorem evalFrom_replicate_zero (b acc n : Nat) :
    evalFrom b acc (List.replicate n 0) = acc * b ^ n := by
  induction n generalizing acc with
  | zero => simp [evalFrom]
  | succ n ih =>
    rw [List.replicate_succ, evalFrom, ih, Nat.pow_succ', Nat.add_zero,
      Nat.mul_assoc]

/-- Reading back the digits of a number returns its low-order part. -/
theorem evalFrom_digits (b n acc x : Nat) :
    evalFrom b acc (digits b n x) = acc * b ^ n + x % b ^ n := by
  induction n generalizing acc with
  | zero => simp [digits, evalFrom, Nat.mod_one]
  | succ n ih =>
    rw [digits, evalFrom, ih, Nat.pow_succ, Nat.mod_mul]
    ring

/-- A digit sequence is the digit sequence of its value. -/
theorem digits_evalFrom (b : Nat) (ds : List Nat) (bounded : ∀ d ∈ ds, d < b) :
    digits b ds.length (evalFrom b 0 ds) = ds := by
  induction ds using List.reverseRecOn with
  | nil => rfl
  | append_singleton rest d ih =>
    have small : d < b := bounded d (by simp)
    have value : evalFrom b 0 (rest ++ [d]) = evalFrom b 0 rest * b + d := by
      rw [evalFrom_append]
      rfl
    have quotient : (evalFrom b 0 rest * b + d) / b = evalFrom b 0 rest := by
      rw [Nat.add_comm, Nat.add_mul_div_right _ _ (by omega), Nat.div_eq_of_lt small]
      omega
    have remainder : (evalFrom b 0 rest * b + d) % b = d := by
      rw [Nat.add_comm, Nat.add_mul_mod_self_right, Nat.mod_eq_of_lt small]
    rw [List.length_append, List.length_singleton, digits_snoc, value, quotient, remainder,
      ih (fun e member => bounded e (by simp [member]))]

theorem evalFrom_lt (b : Nat) (ds : List Nat) (bounded : ∀ d ∈ ds, d < b) :
    evalFrom b 0 ds < b ^ ds.length := by
  have same : digits b ds.length (evalFrom b 0 ds) = ds := digits_evalFrom b ds bounded
  have read := evalFrom_digits b ds.length 0 (evalFrom b 0 ds)
  rw [same, Nat.zero_mul, Nat.zero_add] at read
  rcases Nat.eq_zero_or_pos b with zero | positive
  · cases ds with
    | nil => simp [evalFrom]
    | cons d rest => exact absurd (bounded d (by simp)) (by omega)
  · rw [read]
    exact Nat.mod_lt _ (Nat.pow_pos positive)

/-! ## Order -/

/-- Equal-width digit sequences diverge as their numbers are ordered. -/
theorem digits_diverge (b n x y : Nat) (positive : 0 < b) (bounded : y < b ^ n) (smaller : x < y) :
    Diverges (digits b n x) (digits b n y) := by
  induction n generalizing x y with
  | zero => simp at bounded; omega
  | succ n ih =>
    have leading : y / b ^ n < b := by
      rw [Nat.div_lt_iff_lt_mul (Nat.pow_pos positive), ← Nat.pow_succ']
      exact bounded
    have ordered : x / b ^ n ≤ y / b ^ n := Nat.div_le_div_right (Nat.le_of_lt smaller)
    rw [digits, digits, Nat.mod_eq_of_lt leading, Nat.mod_eq_of_lt (by omega : x / b ^ n < b)]
    rcases Nat.lt_or_eq_of_le ordered with different | same
    · exact .here different
    · rw [same, ← digits_mod b n x n le_rfl, ← digits_mod b n y n le_rfl]
      have xSplit : b ^ n * (x / b ^ n) + x % b ^ n = x := Nat.div_add_mod x (b ^ n)
      have ySplit : b ^ n * (y / b ^ n) + y % b ^ n = y := Nat.div_add_mod y (b ^ n)
      rw [same] at xSplit
      exact .later (ih _ _ (Nat.mod_lt _ (Nat.pow_pos positive)) (by omega))

/-! ## Trailing zeros -/

theorem stripZeros_cons (d : Nat) (rest : List Nat) :
    stripZeros (d :: rest) =
      if stripZeros rest = [] ∧ d = 0 then [] else d :: stripZeros rest := by
  cases kept : stripZeros rest with
  | nil => by_cases zero : d = 0 <;> simp [stripZeros, kept, zero]
  | cons first more => simp [stripZeros, kept]

@[simp] theorem stripZeros_replicate (n : Nat) : stripZeros (List.replicate n 0) = [] := by
  induction n with
  | zero => rfl
  | succ n ih =>
    rw [List.replicate_succ, stripZeros_cons, ih]
    simp

@[simp] theorem stripZeros_append_replicate (ds : List Nat) (n : Nat) :
    stripZeros (ds ++ List.replicate n 0) = stripZeros ds := by
  induction ds with
  | nil => simp [stripZeros]
  | cons d rest ih =>
    rw [List.cons_append, stripZeros_cons, stripZeros_cons, ih]

theorem stripZeros_concat_zero (ds : List Nat) : stripZeros (ds ++ [0]) = stripZeros ds :=
  stripZeros_append_replicate ds 1

theorem stripZeros_concat (ds : List Nat) (d : Nat) (nonzero : d ≠ 0) :
    stripZeros (ds ++ [d]) = ds ++ [d] := by
  induction ds with
  | nil => simp [stripZeros, nonzero]
  | cons first rest ih =>
    rw [List.cons_append, stripZeros_cons, ih]
    simp

/-- A stripped sequence differs from the original by trailing zeros only. -/
theorem stripZeros_restore (ds : List Nat) :
    ∃ n, ds = stripZeros ds ++ List.replicate n 0 := by
  induction ds using List.reverseRecOn with
  | nil => exact ⟨0, rfl⟩
  | append_singleton rest d ih =>
    by_cases zero : d = 0
    · obtain ⟨n, same⟩ := ih
      refine ⟨n + 1, ?_⟩
      rw [zero, stripZeros_concat_zero, List.replicate_succ', ← List.append_assoc, ← same]
    · exact ⟨0, by rw [stripZeros_concat rest d zero]; simp⟩

/-- A stripped sequence is empty or ends in a nonzero digit. -/
theorem stripZeros_last (ds : List Nat) :
    stripZeros ds = [] ∨ ∃ kept d, d ≠ 0 ∧ stripZeros ds = kept ++ [d] := by
  induction ds using List.reverseRecOn with
  | nil => exact .inl rfl
  | append_singleton rest d ih =>
    by_cases zero : d = 0
    · rw [zero, stripZeros_concat_zero]
      exact ih
    · exact .inr ⟨rest, d, zero, stripZeros_concat rest d zero⟩

theorem stripZeros_idem (ds : List Nat) : stripZeros (stripZeros ds) = stripZeros ds := by
  rcases stripZeros_last ds with vacant | ⟨kept, d, nonzero, same⟩
  · rw [vacant]
    rfl
  · rw [same, stripZeros_concat kept d nonzero]

theorem stripZeros_subset (ds : List Nat) : ∀ d ∈ stripZeros ds, d ∈ ds := by
  obtain ⟨n, same⟩ := stripZeros_restore ds
  intro d member
  rw [same]
  exact List.mem_append_left _ member

theorem stripZeros_length_le (ds : List Nat) : (stripZeros ds).length ≤ ds.length := by
  obtain ⟨n, same⟩ := stripZeros_restore ds
  have total := congrArg List.length same
  rw [List.length_append] at total
  omega

/-- A stripped sequence that starts with a nonzero digit keeps that digit. -/
theorem stripZeros_cons_of_ne (d : Nat) (rest : List Nat) (nonzero : d ≠ 0) :
    stripZeros (d :: rest) = d :: stripZeros rest := by
  rw [stripZeros_cons, if_neg (by simp [nonzero])]

/-- Nothing before a nonzero digit is stripped. -/
theorem stripZeros_append (left right : List Nat) (kept : stripZeros right ≠ []) :
    stripZeros (left ++ right) = left ++ stripZeros right := by
  induction left with
  | nil => rfl
  | cons d rest ih =>
    rw [List.cons_append, stripZeros_cons, ih, if_neg (by simp [kept]),
      List.cons_append]

/-- A number that fits in fewer digits is preceded by zeros. -/
theorem digits_leading_zeros (b k n x : Nat) (small : x < b ^ n) :
    digits b (k + n) x = List.replicate k 0 ++ digits b n x := by
  have zeros : ∀ k, digits b k 0 = List.replicate k 0 := by
    intro k
    induction k with
    | zero => rfl
    | succ k ih =>
      rw [digits, ih, Nat.zero_div, Nat.zero_mod, List.replicate_succ]
  rw [digits_add, Nat.div_eq_of_lt small, zeros]

/-- A positive number has a digit to keep. -/
theorem stripZeros_digits_ne_nil (b n x : Nat) (positive : 0 < x) (small : x < b ^ n) :
    stripZeros (digits b n x) ≠ [] := by
  intro vacant
  obtain ⟨k, same⟩ := stripZeros_restore (digits b n x)
  have read := evalFrom_digits b n 0 x
  rw [same, vacant, List.nil_append, evalFrom_replicate_zero, Nat.mod_eq_of_lt small] at read
  omega

/-- The larger of two diverging sequences has a nonzero digit to keep. -/
theorem stripZeros_ne_nil_of_diverges {left right : List Nat} (apart : Diverges left right) :
    stripZeros right ≠ [] := by
  induction apart with
  | @here x y left right smaller =>
    rw [stripZeros_cons_of_ne y right (by omega)]
    exact List.cons_ne_nil _ _
  | @later x left right rest ih =>
    rw [stripZeros_cons, if_neg (by simp [ih])]
    exact List.cons_ne_nil _ _

/-- Dropping trailing zeros preserves divergence once both sequences are closed
by an element below every code: a sequence cut short meets the closing element
where the other still has a digit. -/
theorem stripZeros_diverges {β : Type*} [LT β] (code : Nat → β) (closing : β) {left right : List Nat}
    (apart : Diverges left right)
    (monotone : ∀ x ∈ left, ∀ y ∈ right, x < y → code x < code y)
    (above : ∀ x ∈ right, closing < code x) :
    Diverges ((stripZeros left).map code ++ [closing])
      ((stripZeros right).map code ++ [closing]) := by
  induction apart with
  | @here x y left right smaller =>
    rw [stripZeros_cons_of_ne y right (by omega), stripZeros_cons]
    split
    · exact .here (above y (by simp))
    · exact .here (monotone x (by simp) y (by simp) smaller)
  | @later x left right rest ih =>
    have tails := ih
      (fun a member b other => monotone a (by simp [member]) b (by simp [other]))
      (fun a member => above a (by simp [member]))
    have kept : stripZeros right ≠ [] := stripZeros_ne_nil_of_diverges rest
    rw [stripZeros_cons x right, if_neg (by simp [kept]), stripZeros_cons]
    split
    · exact .here (above x (by simp))
    · exact .later tails

end Ydb.Lib
