import Ydb.HashTable
import Mathlib.Data.Nat.Prime.Basic
import Mathlib.Algebra.BigOperators.Group.List.Lemmas

/-!
# Sizes of hash tables

Double hashing visits every slot because the sizes are prime. Consecutive sizes
differ by less than a factor of three, so a table that is an eighth full still
fits when it moves to the size before its own.
-/

namespace Ydb

open Lib

/-! ## Primes -/

/-- The product of `2 ^ k` consecutive numbers, by halves. -/
def rangeProduct : Nat → Nat → Nat
  | 0, first => first
  | k + 1, first => rangeProduct k first * rangeProduct k (first + 2 ^ k)

theorem dvd_rangeProduct (k : Nat) {first d : Nat} (notBelow : first ≤ d)
    (below : d < first + 2 ^ k) : d ∣ rangeProduct k first := by
  induction k generalizing first with
  | zero =>
    have same : d = first := by
      rw [Nat.pow_zero] at below
      omega
    exact same ▸ Nat.dvd_refl _
  | succ k ih =>
    rw [rangeProduct]
    rw [Nat.pow_succ] at below
    by_cases firstHalf : d < first + 2 ^ k
    · exact Dvd.dvd.mul_right (ih notBelow firstHalf) _
    · exact Dvd.dvd.mul_left (ih (by omega) (by omega)) _

/-- A number without a common factor with a product of all candidates is prime. -/
theorem prime_of_coprime {n bound product : Nat} (big : 1 < n) (small : n < (bound + 1) ^ 2)
    (divides : ∀ d, 2 ≤ d → d ≤ bound → d ∣ product) (coprime : Nat.Coprime n product) :
    n.Prime := by
  by_contra composite
  have factor : n.minFac.Prime := Nat.minFac_prime (Nat.ne_of_gt big)
  have square : n.minFac ^ 2 ≤ n := Nat.minFac_sq_le_self (Nat.zero_lt_of_lt big) composite
  have below : n.minFac ≤ bound := by
    have roots : n.minFac < bound + 1 := lt_of_pow_lt_pow_left' 2 (square.trans_lt small)
    exact Nat.lt_succ_iff.mp roots
  have common : n.minFac ∣ Nat.gcd n product :=
    Nat.dvd_gcd (Nat.minFac_dvd n) (divides _ factor.two_le below)
  rw [coprime] at common
  exact factor.one_lt.ne' (Nat.dvd_one.mp common)

theorem primes_of_coprime {sizes : List Nat} {bound product : Nat}
    (range : ∀ n ∈ sizes, 1 < n ∧ n < (bound + 1) ^ 2)
    (divides : ∀ d, 2 ≤ d → d ≤ bound → d ∣ product) (coprime : Nat.gcd sizes.prod product = 1) :
    ∀ n ∈ sizes, n.Prime := by
  intro n member
  obtain ⟨big, small⟩ := range n member
  exact prime_of_coprime big small divides
    (Nat.Coprime.coprime_dvd_left (List.dvd_prod member) coprime)

theorem small_sizes_prime :
    ∀ n ∈ [13, 37, 53, 97], n.Prime := by
  have divides : ∀ d, 2 ≤ d → d ≤ 9 → d ∣ rangeProduct 3 2 :=
    fun d atLeast atMost => dvd_rangeProduct 3 atLeast (by omega)
  exact primes_of_coprime (by decide) divides (by decide +kernel)

theorem medium_sizes_prime :
    ∀ n ∈ [193, 389, 769, 1543, 3079, 6151, 12289, 24593], n.Prime := by
  have divides : ∀ d, 2 ≤ d → d ≤ 159 → d ∣ rangeProduct 7 2 * rangeProduct 5 130 := by
    intro d atLeast atMost
    by_cases low : d < 130
    · exact Dvd.dvd.mul_right (dvd_rangeProduct 7 atLeast (by omega)) _
    · exact Dvd.dvd.mul_left (dvd_rangeProduct 5 (by omega) (by omega)) _
  exact primes_of_coprime (by decide) divides (by decide +kernel)

theorem large_sizes_prime : ∀ n ∈ extended_ht_sizes.drop 12, n ≠ 0 → n.Prime := by
  have divides : ∀ d, 2 ≤ d → d ≤ 40961 → d ∣ rangeProduct 15 2 * rangeProduct 13 32770 := by
    intro d atLeast atMost
    by_cases low : d < 32770
    · exact Dvd.dvd.mul_right (dvd_rangeProduct 15 atLeast (by omega)) _
    · exact Dvd.dvd.mul_left (dvd_rangeProduct 13 (by omega) (by omega)) _
  have primes : ∀ n ∈ (extended_ht_sizes.drop 12).filter (· ≠ 0), n.Prime :=
    primes_of_coprime (by decide +kernel) divides (by decide +kernel)
  intro n member nonzero
  exact primes n (List.mem_filter.mpr ⟨member, by simpa using nonzero⟩)

theorem extended_ht_sizes_prime : ∀ n ∈ extended_ht_sizes, n ≠ 0 → n.Prime := by
  intro n member nonzero
  have split : extended_ht_sizes = [13, 37, 53, 97] ++
      [193, 389, 769, 1543, 3079, 6151, 12289, 24593] ++ extended_ht_sizes.drop 12 := rfl
  rw [split, List.mem_append, List.mem_append] at member
  rcases member with (small | medium) | large
  · exact small_sizes_prime n small
  · exact medium_sizes_prime n medium
  · exact large_sizes_prime n large nonzero

/-! ## The tables of sizes -/

/-- One of the two tables that `ht_sizes` points at. -/
def IsHtSizes (ht_sizes : List Nat) : Prop :=
  ht_sizes = default_ht_sizes ∨ ht_sizes = extended_ht_sizes

namespace IsHtSizes

variable {ht_sizes : List Nat} (sizes : IsHtSizes ht_sizes)

include sizes

theorem subset {n : Nat} (member : n ∈ ht_sizes) : n ∈ extended_ht_sizes := by
  rcases sizes with rfl | rfl
  · have all : ∀ n ∈ default_ht_sizes, n ∈ extended_ht_sizes := by decide
    exact all n member
  · exact member

theorem prime {n : Nat} (member : n ∈ ht_sizes) (nonzero : n ≠ 0) : n.Prime :=
  extended_ht_sizes_prime n (sizes.subset member) nonzero

theorem bounds {n : Nat} (member : n ∈ ht_sizes) (nonzero : n ≠ 0) : 13 ≤ n ∧ n < 2 ^ 31 := by
  have all : ∀ n ∈ extended_ht_sizes, n ≠ 0 → 13 ≤ n ∧ n < 2 ^ 31 := by decide
  exact all n (sizes.subset member) nonzero

/-- Two sizes are never neighbours. -/
theorem apart {n n' : Nat} (member : n ∈ ht_sizes) (member' : n' ∈ ht_sizes) (nonzero : n ≠ 0)
    (less : n < n') : n + 1 < n' := by
  have nonzero' : n' ≠ 0 := by omega
  have least := (sizes.bounds member nonzero).1
  rcases (sizes.prime member nonzero).eq_two_or_odd with two | odd
  · omega
  · rcases (sizes.prime member' nonzero').eq_two_or_odd with two | odd'
    · omega
    · omega

/-- The size before a size is a size, and not much smaller. -/
theorem priorSize_spec {n : Nat} (member : n ∈ ht_sizes) (nonzero : n ≠ 0) :
    priorSize n ht_sizes ∈ ht_sizes ∧ priorSize n ht_sizes ≠ 0 ∧
      n ≤ 3 * priorSize n ht_sizes := by
  rcases sizes with rfl | rfl
  · have all : ∀ n ∈ default_ht_sizes, n ≠ 0 → priorSize n default_ht_sizes ∈ default_ht_sizes ∧
        priorSize n default_ht_sizes ≠ 0 ∧ n ≤ 3 * priorSize n default_ht_sizes := by
      decide +kernel
    exact all n member nonzero
  · have all : ∀ n ∈ extended_ht_sizes, n ≠ 0 →
        priorSize n extended_ht_sizes ∈ extended_ht_sizes ∧
        priorSize n extended_ht_sizes ≠ 0 ∧ n ≤ 3 * priorSize n extended_ht_sizes := by
      decide +kernel
    exact all n member nonzero

end IsHtSizes

/-- The size found is one of the sizes, and large enough. -/
theorem sizeFor_spec (minsize : Nat) (ht_sizes : List Nat) (found : sizeFor minsize ht_sizes ≠ 0) :
    sizeFor minsize ht_sizes ∈ ht_sizes ∧ minsize ≤ sizeFor minsize ht_sizes := by
  induction ht_sizes with
  | nil => exact absurd rfl found
  | cons cur_ht_size rest ih =>
    rw [sizeFor] at found ⊢
    split at found
    next tooSmall =>
      rw [if_pos tooSmall]
      obtain ⟨member, enough⟩ := ih found
      exact ⟨List.mem_cons_of_mem _ member, enough⟩
    next stop =>
      rw [if_neg stop]
      refine ⟨List.mem_cons_self, ?_⟩
      by_contra tooSmall
      exact stop ⟨found, Nat.lt_of_not_le tooSmall⟩

end Ydb
