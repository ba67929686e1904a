import Mathlib.Data.List.Basic

/-!
# The first index with a property

The least index of a range of natural numbers that has a property. A search that
splits the range into parts and searches them one after the other finds it, and
searches that start again behind the last index found list all of them.
-/

namespace Ydb.Lib

/-- The first of `width` indices from `start` on that has the property. -/
def firstIn (p : Nat → Bool) (start : Nat) : Nat → Option Nat
  | 0 => none
  | width + 1 => if p start then some start else firstIn p (start + 1) width

variable {p q : Nat → Bool} {start width i : Nat}

theorem firstIn_append (p : Nat → Bool) (start m n : Nat) :
    firstIn p start (m + n) = (firstIn p start m).or (firstIn p (start + m) n) := by
  induction m generalizing start with
  | zero => simp [firstIn]
  | succ m ih =>
    rw [Nat.succ_add, firstIn, firstIn]
    by_cases here : p start = true
    · rw [if_pos here, if_pos here, Option.some_or]
    · rw [if_neg here, if_neg here, ih, Nat.succ_add_eq_add_succ]

theorem firstIn_congr (same : ∀ i, start ≤ i → i < start + width → p i = q i) :
    firstIn p start width = firstIn q start width := by
  induction width generalizing start with
  | zero => rfl
  | succ width ih =>
    have here := same start (Nat.le_refl _) (by omega)
    have rest : firstIn p (start + 1) width = firstIn q (start + 1) width :=
      ih fun i after below => same i (by omega) (by omega)
    rw [firstIn, firstIn, here, rest]

theorem firstIn_eq_none_iff :
    firstIn p start width = none ↔ ∀ i, start ≤ i → i < start + width → p i = false := by
  induction width generalizing start with
  | zero =>
    rw [firstIn]
    exact iff_of_true rfl fun i after below => absurd below (by omega)
  | succ width ih =>
    rw [firstIn]
    by_cases here : p start = true
    · rw [if_pos here]
      refine iff_of_false (Option.some_ne_none _) ?_
      intro clear
      have clear := clear start (Nat.le_refl _) (by omega)
      rw [here] at clear
      cases clear
    · rw [if_neg here, ih]
      constructor
      · intro clear i after below
        rcases Nat.eq_or_lt_of_le after with rfl | later
        · exact (Bool.not_eq_true _).mp here
        · exact clear i later (by omega)
      · intro clear i after below
        exact clear i (by omega) (by omega)

theorem firstIn_eq_some_iff :
    firstIn p start width = some i ↔
      start ≤ i ∧ i < start + width ∧ p i = true ∧ ∀ j, start ≤ j → j < i → p j = false := by
  induction width generalizing start with
  | zero =>
    rw [firstIn]
    refine iff_of_false (Option.some_ne_none _).symm ?_
    rintro ⟨after, below, _⟩
    omega
  | succ width ih =>
    rw [firstIn]
    by_cases here : p start = true
    · rw [if_pos here, Option.some_inj]
      constructor
      · rintro rfl
        exact ⟨(Nat.le_refl _), by omega, here, fun j after before => absurd before (by omega)⟩
      · rintro ⟨after, _, _, clear⟩
        by_contra differ
        have none := clear start (Nat.le_refl _) (by omega)
        rw [here] at none
        cases none
    · rw [if_neg here, ih]
      constructor
      · rintro ⟨after, below, found, clear⟩
        refine ⟨by omega, by omega, found, ?_⟩
        intro j after' before
        rcases Nat.eq_or_lt_of_le after' with rfl | later
        · exact (Bool.not_eq_true _).mp here
        · exact clear j later before
      · rintro ⟨after, below, found, clear⟩
        have later : start ≠ i := by
          rintro rfl
          exact here found
        exact ⟨by omega, by omega, found, fun j after' before => clear j (by omega) before⟩

/-- A search of a part, counted from the start of the part. -/
theorem firstIn_shift (p : Nat → Bool) (base start width : Nat) :
    firstIn p (base + start) width = (firstIn (fun i => p (base + i)) start width).map (base + ·) := by
  induction width generalizing start with
  | zero => rfl
  | succ width ih =>
    rw [firstIn, firstIn]
    by_cases here : p (base + start) = true
    · rw [if_pos here, if_pos here, Option.map_some]
    · rw [if_neg here, if_neg here]
      exact ih (start + 1)

/-- The indices with the property from `start` on up to `top`, each found behind the last. -/
theorem filter_firstIn (p : Nat → Bool) {start top : Nat} (below : start ≤ top) :
    (List.range' start (top - start)).filter p =
      match firstIn p start (top - start) with
      | none => []
      | some i => i :: (List.range' (i + 1) (top - (i + 1))).filter p := by
  obtain ⟨width, rfl⟩ := Nat.exists_eq_add_of_le below
  rw [Nat.add_sub_cancel_left]
  induction width generalizing start with
  | zero => rfl
  | succ width ih =>
    rw [List.range'_succ, firstIn]
    have shifted : start + (width + 1) = start + 1 + width := by omega
    by_cases here : p start = true
    · rw [List.filter_cons_of_pos here, if_pos here, shifted]
      dsimp only
      rw [Nat.add_sub_cancel_left]
    · rw [List.filter_cons_of_neg here, if_neg here, shifted]
      exact ih (by omega)

end Ydb.Lib
