import Mathlib.Data.Nat.Digits.Lemmas
import Mathlib.Tactic.Linarith
import Mathlib.Tactic.Ring

/-!
# Schoolbook arithmetic on limbs

Numbers are lists of limbs in a fixed base, the least significant first, read by
`Nat.ofDigits`. A row of a schoolbook multiplication carries to the left, a row of
a long division borrows, and each row is one equation between the numbers that
the lists denote. A trial quotient taken from the leading limbs is never below the
true one, so a division only ever has to correct downward.
-/

namespace Ydb.Lib

/-- Every limb is below the base. -/
def Limbs (b : ℕ) (ds : List ℕ) : Prop := ∀ d ∈ ds, d < b

variable {b : ℕ}

theorem Limbs.nil : Limbs b [] := by
  intro d impossible
  cases impossible

theorem Limbs.cons {d : ℕ} {ds : List ℕ} (head : d < b) (tail : Limbs b ds) : Limbs b (d :: ds) := by
  intro e listed
  rcases List.mem_cons.mp listed with rfl | later
  · exact head
  · exact tail e later

theorem Limbs.head {d : ℕ} {ds : List ℕ} (limbs : Limbs b (d :: ds)) : d < b :=
  limbs d List.mem_cons_self

theorem Limbs.tail {d : ℕ} {ds : List ℕ} (limbs : Limbs b (d :: ds)) : Limbs b ds :=
  fun e later => limbs e (List.mem_cons_of_mem d later)

theorem Limbs.append {ds es : List ℕ} (first : Limbs b ds) (second : Limbs b es) :
    Limbs b (ds ++ es) := by
  intro d listed
  rcases List.mem_append.mp listed with early | late
  · exact first d early
  · exact second d late

theorem ofDigits_lt (base : 1 < b) {ds : List ℕ} (limbs : Limbs b ds) :
    Nat.ofDigits b ds < b ^ ds.length :=
  Nat.ofDigits_lt_base_pow_length base limbs

/-- The leading limb of a list. -/
theorem ofDigits_concat (b : ℕ) (ds : List ℕ) (d : ℕ) :
    Nat.ofDigits b (ds ++ [d]) = Nat.ofDigits b ds + b ^ ds.length * d := by
  rw [Nat.ofDigits_append, Nat.ofDigits_singleton]

/-- A quotient estimated from the leading limbs is not too small. Below the two
leading limbs of the dividend and below the leading limb of the divisor anything
may follow. -/
theorem trial_quotient_ge {scale w x lead top : ℕ} (rest : ℕ) (scalePos : 0 < scale) (leadPos : 0 < lead)
    (dividend : w = scale * top + rest) (restLt : rest < scale) (divisor : scale * lead ≤ x) :
    w / x ≤ top / lead := by
  have leading : w / scale = top := by
    rw [dividend, Nat.mul_add_div scalePos, Nat.div_eq_of_lt restLt, Nat.add_zero]
  calc w / x ≤ w / (scale * lead) := Nat.div_le_div_left divisor (Nat.mul_pos scalePos leadPos)
    _ = w / scale / lead := (Nat.div_div_eq_div_mul _ _ _).symm
    _ = top / lead := by rw [leading]

end Ydb.Lib
