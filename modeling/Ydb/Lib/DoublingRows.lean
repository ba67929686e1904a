import Mathlib.Data.Nat.Log
import Mathlib.Tactic.Ring

/-!
# Rows of doubling size

An array that grows is kept in rows. The first row has a given size, and each further
row is as large as all rows before it together. The row of an index is a logarithm.
-/

namespace Ydb.Lib

/-- The number of places up to and including a row. -/
def rowEnd (size r : Nat) : Nat := 2 ^ r * size

/-- The number of places before a row. -/
def rowStart (size : Nat) : Nat → Nat
  | 0 => 0
  | r + 1 => rowEnd size r

/-- The number of places of a row. -/
def rowSize (size r : Nat) : Nat := rowEnd size r - rowStart size r

/-- The row of an index. -/
def rowOf (size i : Nat) : Nat := if i < size then 0 else Nat.log 2 (i / size) + 1

/-- How far an index is behind the beginning of its row. -/
def rowOffset (size i : Nat) : Nat := i - rowStart size (rowOf size i)

variable {size : Nat}

@[simp] theorem rowStart_zero : rowStart size 0 = 0 := rfl

@[simp] theorem rowStart_succ (r : Nat) : rowStart size (r + 1) = rowEnd size r := rfl

theorem rowEnd_zero : rowEnd size 0 = size := by simp [rowEnd]

theorem rowEnd_succ (r : Nat) : rowEnd size (r + 1) = 2 * rowEnd size r := by
  rw [rowEnd, rowEnd]
  ring

theorem rowEnd_pos (positive : 0 < size) (r : Nat) : 0 < rowEnd size r :=
  Nat.mul_pos (Nat.two_pow_pos r) positive

theorem rowEnd_mono {r s : Nat} (le : r ≤ s) : rowEnd size r ≤ rowEnd size s :=
  Nat.mul_le_mul_right size (Nat.pow_le_pow_right (by decide) le)

theorem rowStart_lt_rowEnd (positive : 0 < size) (r : Nat) : rowStart size r < rowEnd size r := by
  cases r with
  | zero =>
    rw [rowEnd_zero]
    exact positive
  | succ r =>
    have before := rowEnd_pos positive r
    rw [rowStart_succ, rowEnd_succ]
    omega

theorem rowSize_zero : rowSize size 0 = size := by
  rw [rowSize, rowEnd_zero, rowStart_zero, Nat.sub_zero]

theorem rowSize_succ (r : Nat) : rowSize size (r + 1) = rowEnd size r := by
  rw [rowSize, rowEnd_succ, rowStart_succ]
  omega

theorem rowStart_add_rowSize (positive : 0 < size) (r : Nat) :
    rowStart size r + rowSize size r = rowEnd size r := by
  have before := rowStart_lt_rowEnd positive r
  rw [rowSize]
  omega

theorem rowStart_rowOf_le (size i : Nat) : rowStart size (rowOf size i) ≤ i := by
  rw [rowOf]
  split
  · exact Nat.zero_le i
  next beyond =>
    by_cases positive : 0 < size
    · have quotient : i / size ≠ 0 := Nat.ne_of_gt (Nat.div_pos (Nat.not_lt.mp beyond) positive)
      have power := Nat.pow_log_le_self 2 quotient
      exact (Nat.mul_le_mul_right size power).trans (Nat.div_mul_le_self i size)
    · have empty : size = 0 := Nat.eq_zero_of_not_pos positive
      simp [empty, rowEnd]

theorem lt_rowEnd_rowOf (positive : 0 < size) (i : Nat) : i < rowEnd size (rowOf size i) := by
  rw [rowOf]
  split
  next first =>
    rwa [rowEnd_zero]
  next beyond =>
    have power : i / size < 2 ^ (Nat.log 2 (i / size) + 1) := Nat.lt_pow_succ_log_self (by decide) _
    exact (Nat.div_lt_iff_lt_mul positive).mp power

/-- An index is in no row but its own. -/
theorem rowOf_eq {i r : Nat} (start : rowStart size r ≤ i) (finish : i < rowEnd size r) :
    rowOf size i = r := by
  have positive : 0 < size := by
    apply Nat.pos_of_ne_zero
    rintro rfl
    simp [rowEnd] at finish
  have start' := rowStart_rowOf_le size i
  have finish' := lt_rowEnd_rowOf positive i
  by_contra other
  rcases Nat.lt_or_gt_of_ne other with before | after
  · obtain ⟨s, rfl⟩ : ∃ s, r = s + 1 := ⟨r - 1, by omega⟩
    have le : rowEnd size (rowOf size i) ≤ rowEnd size s := rowEnd_mono (by omega)
    rw [rowStart_succ] at start
    omega
  · obtain ⟨s, equal⟩ : ∃ s, rowOf size i = s + 1 := ⟨rowOf size i - 1, by omega⟩
    have le : rowEnd size r ≤ rowEnd size s := rowEnd_mono (by omega)
    rw [equal, rowStart_succ] at start'
    omega

end Ydb.Lib
