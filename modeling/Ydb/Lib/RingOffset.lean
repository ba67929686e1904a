import Mathlib.Data.Nat.Basic

/-!
# Offsets in a ring

The slots of a ring are numbered from zero to `n - 1`, and slot zero comes after the last
one. The offset of a slot from another is the number of steps that lead to it.
-/

namespace Ydb.Lib

/-- The number of steps from `a` to `b`. -/
def ringOffset (n a b : Nat) : Nat := (n + b - a) % n

variable {n a b c : Nat}

theorem ringOffset_of_le (order : a ≤ b) (inside : b < n) : ringOffset n a b = b - a := by
  have turn : n + b - a = b - a + n := by omega
  rw [ringOffset, turn, Nat.add_mod_right, Nat.mod_eq_of_lt (by omega)]

theorem ringOffset_of_lt (order : b < a) (inside : a < n) : ringOffset n a b = n + b - a := by
  rw [ringOffset, Nat.mod_eq_of_lt (by omega)]

/-- The slot `k` steps further, within one turn. -/
theorem ring_add (inside : a < n) {k : Nat} (turn : k ≤ n) :
    (a + k) % n = if a + k < n then a + k else a + k - n := by
  by_cases low : a + k < n
  · rw [if_pos low, Nat.mod_eq_of_lt low]
  · rw [if_neg low, Nat.mod_eq_sub_mod (by omega), Nat.mod_eq_of_lt (by omega)]

theorem ringOffset_lt (inside : a < n) : ringOffset n a b < n := Nat.mod_lt _ (by omega)

theorem ringOffset_self (inside : a < n) : ringOffset n a a = 0 := by
  rw [ringOffset_of_le (Nat.le_refl a) inside, Nat.sub_self]

/-- The slot at the offset of `b` is `b`. -/
theorem ring_add_offset (first : a < n) (second : b < n) : (a + ringOffset n a b) % n = b := by
  rw [ring_add first (Nat.le_of_lt (ringOffset_lt first))]
  rcases Nat.lt_or_ge b a with less | order
  · rw [ringOffset_of_lt less first, if_neg (by omega)]
    omega
  · rw [ringOffset_of_le order second, if_pos (by omega)]
    omega

theorem ringOffset_add (inside : a < n) {k : Nat} (turn : k < n) : ringOffset n a ((a + k) % n) = k := by
  rw [ring_add inside (Nat.le_of_lt turn)]
  by_cases low : a + k < n
  · rw [if_pos low, ringOffset_of_le (Nat.le_add_right a k) low]
    omega
  · rw [if_neg low, ringOffset_of_lt (by omega) inside]
    omega

/-- A slot on the way to another one. -/
theorem ringOffset_sub (first : a < n) (second : b < n) (third : c < n)
    (between : ringOffset n c b ≤ ringOffset n a b) :
    ringOffset n a c = ringOffset n a b - ringOffset n c b := by
  rcases Nat.lt_or_ge b a with back | forward <;> rcases Nat.lt_or_ge b c with back' | forward' <;>
    rcases Nat.lt_or_ge c a with before | after <;>
    simp only [ringOffset_of_lt, ringOffset_of_le, *] at between ⊢ <;> omega

/-- The next slot is one step further, unless a turn is complete. -/
theorem ringOffset_next (first : a < n) (second : b < n) (more : (b + 1) % n ≠ a) :
    ringOffset n a ((b + 1) % n) = ringOffset n a b + 1 := by
  have below : (b + 1) % n < n := Nat.mod_lt _ (by omega)
  rw [ring_add second (by omega)] at more below ⊢
  by_cases low : b + 1 < n
  · rw [if_pos low] at more below ⊢
    rcases Nat.lt_or_ge b a with less | order
    · rw [ringOffset_of_lt less first, ringOffset_of_lt (by omega) first]
      omega
    · rw [ringOffset_of_le order second, ringOffset_of_le (by omega) low]
      omega
  · rw [if_neg low] at more below ⊢
    rw [ringOffset_of_lt (by omega) first, ringOffset_of_le (by omega) second]
    omega

/-- From the next slot it is one step less. -/
theorem ringOffset_step (first : a < n) (second : b < n) (apart : a ≠ b) :
    ringOffset n ((a + 1) % n) b + 1 = ringOffset n a b := by
  have below : (a + 1) % n < n := Nat.mod_lt _ (by omega)
  rw [ring_add first (by omega)] at below ⊢
  by_cases low : a + 1 < n
  · rw [if_pos low] at below ⊢
    rcases Nat.lt_or_ge b a with less | order
    · rw [ringOffset_of_lt less first, ringOffset_of_lt (by omega) low]
      omega
    · rw [ringOffset_of_le order second, ringOffset_of_le (by omega) second]
      omega
  · rw [if_neg low] at below ⊢
    rw [ringOffset_of_le (by omega) second, ringOffset_of_lt (by omega) first]
    omega

end Ydb.Lib
