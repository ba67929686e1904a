import Mathlib.Data.Nat.Prime.Basic
import Mathlib.Data.Nat.ModEq
import Mathlib.Data.Finset.Card
import Mathlib.Logic.Function.Basic
import Mathlib.Tactic.Ring

/-!
# Open addressing

A table of `n` slots is searched along a path of its own for each key. An entry
may sit behind other keys' entries on its path, so a deletion that empties a slot
can hide it. Each slot therefore carries a mark, set when an insertion goes past
it: only unmarked slots are emptied, the others keep a tombstone.
-/

namespace Ydb.Lib

/-- What a slot holds. -/
inductive Slot (κ ν : Type*) where
  | empty
  | deleted
  | live (key : κ) (value : ν)

section Paths

/-- The first `n` stations of a path are all the slots. -/
structure FullCycle (n : Nat) (path : Nat → Nat) : Prop where
  bounded : ∀ i, path i < n
  injective : ∀ i j, i < n → j < n → path i = path j → i = j

theorem FullCycle.surjective {n : Nat} {path : Nat → Nat} (cycle : FullCycle n path) {s : Nat}
    (inTable : s < n) : ∃ i < n, path i = s := by
  have into : Set.MapsTo path (Finset.range n) (Finset.range n) := by
    intro i _
    exact Finset.mem_coe.mpr (Finset.mem_range.mpr (cycle.bounded i))
  have distinct : Set.InjOn path (Finset.range n) := by
    intro i iMember j jMember same
    exact cycle.injective i j (by simpa using iMember) (by simpa using jMember) same
  have onto := Finset.surjOn_of_injOn_of_card_le path into distinct le_rfl
  obtain ⟨i, member, here⟩ := onto (Finset.mem_coe.mpr (Finset.mem_range.mpr inTable))
  exact ⟨i, by simpa using member, here⟩

/-- Steps of one width around a prime number of slots visit all of them. -/
theorem fullCycle_of_prime {p step : Nat} (prime : p.Prime) (positive : 0 < step)
    (short : step < p) (start : Nat) : FullCycle p fun i => (start + i * step) % p where
  bounded i := Nat.mod_lt _ prime.pos
  injective i j iBound jBound same := by
    have multiples : i * step ≡ j * step [MOD p] := Nat.ModEq.add_left_cancel' start same
    have coprime : Nat.gcd p step = 1 :=
      (prime.coprime_iff_not_dvd.mpr (Nat.not_dvd_of_pos_of_lt positive short))
    have congruent : i ≡ j [MOD p] := Nat.ModEq.cancel_right_of_coprime coprime multiples
    exact Nat.ModEq.eq_of_lt_of_lt congruent iBound jBound

end Paths

section Tables

variable {κ ν : Type*} {n : Nat} {path : κ → Nat → Nat} {slots : Nat → Slot κ ν}
  {passed : Nat → Bool}

/-- A pair is in the table. -/
def Holds (n : Nat) (slots : Nat → Slot κ ν) (key : κ) (value : ν) : Prop :=
  ∃ s < n, slots s = .live key value

/-- Each live key is on its own path, behind slots that are marked and not empty,
and no key is there twice. -/
structure Searchable (n : Nat) (path : κ → Nat → Nat) (slots : Nat → Slot κ ν)
    (passed : Nat → Bool) : Prop where
  found : ∀ s < n, ∀ key value, slots s = .live key value → ∃ i < n, path key i = s ∧
    ∀ j < i, slots (path key j) ≠ .empty ∧ passed (path key j) = true
  single : ∀ s < n, ∀ s' < n, ∀ key value value', slots s = .live key value →
    slots s' = .live key value' → s = s'

theorem searchable_of_empty (empty : ∀ s < n, slots s = .empty) :
    Searchable n path slots passed where
  found s inTable key value live := by
    rw [empty s inTable] at live
    cases live
  single s inTable s' _ key value value' live := by
    rw [empty s inTable] at live
    cases live

namespace Searchable

variable (ok : Searchable n path slots passed)

include ok

theorem mark {passed' : Nat → Bool} (kept : ∀ s, passed s = true → passed' s = true) :
    Searchable n path slots passed' where
  found s inTable key value live := by
    obtain ⟨i, bound, here, before⟩ := ok.found s inTable key value live
    refine ⟨i, bound, here, ?_⟩
    intro j earlier
    exact ⟨(before j earlier).1, kept _ (before j earlier).2⟩
  single := ok.single

/-- A search that meets an empty slot before the key may stop. -/
theorem absent_of_empty {key : κ} {i : Nat}
    (notBefore : ∀ j < i, ∀ value, slots (path key j) ≠ .live key value)
    (empty : slots (path key i) = .empty) (value : ν) : ¬ Holds n slots key value := by
  rintro ⟨s, inTable, live⟩
  obtain ⟨i', _, rfl, before⟩ := ok.found s inTable key value live
  rcases lt_trichotomy i' i with earlier | same | later
  · exact notBefore i' earlier value live
  · rw [same, empty] at live
    cases live
  · exact (before i later).1 empty

theorem absent_of_cycle {key : κ} (notThere : ∀ j < n, ∀ value,
    slots (path key j) ≠ .live key value) (value : ν) : ¬ Holds n slots key value := by
  rintro ⟨s, inTable, live⟩
  obtain ⟨i, bound, rfl, _⟩ := ok.found s inTable key value live
  exact notThere i bound value live

/-- Fill a free slot of the key's path, all earlier ones being marked. -/
theorem insert {passed' : Nat → Bool} (kept : ∀ s, passed s = true → passed' s = true) {key : κ}
    (value : ν) {d : Nat} (bound : d < n)
    (before : ∀ j < d, slots (path key j) ≠ .empty ∧ passed' (path key j) = true)
    (absent : ∀ value', ¬ Holds n slots key value') :
    Searchable n path (Function.update slots (path key d) (.live key value)) passed' where
  found s inTable key' value' live := by
    -- No slot becomes empty, so what is before an entry stays as it was.
    have filled : ∀ s', slots s' ≠ .empty →
        Function.update slots (path key d) (.live key value) s' ≠ .empty := by
      intro s' nonempty
      by_cases here : s' = path key d
      · rw [here, Function.update_self]
        exact nofun
      · rw [Function.update_of_ne here]
        exact nonempty
    by_cases here : s = path key d
    · rw [here, Function.update_self] at live
      injection live with sameKey _
      subst sameKey
      refine ⟨d, bound, here.symm, ?_⟩
      intro j earlier
      exact ⟨filled _ (before j earlier).1, (before j earlier).2⟩
    · rw [Function.update_of_ne here] at live
      obtain ⟨i, iBound, there, earlierSlots⟩ := ok.found s inTable key' value' live
      refine ⟨i, iBound, there, ?_⟩
      intro j earlier
      exact ⟨filled _ (earlierSlots j earlier).1, kept _ (earlierSlots j earlier).2⟩
  single s inTable s' inTable' key' value₁ value₂ live live' := by
    by_cases here : s = path key d
    · by_cases here' : s' = path key d
      · exact here.trans here'.symm
      · rw [here, Function.update_self] at live
        rw [Function.update_of_ne here'] at live'
        injection live with sameKey _
        exact absurd ⟨s', inTable', sameKey ▸ live'⟩ (absent value₂)
    · by_cases here' : s' = path key d
      · rw [Function.update_of_ne here] at live
        rw [here', Function.update_self] at live'
        injection live' with sameKey _
        exact absurd ⟨s, inTable, sameKey ▸ live⟩ (absent value₁)
      · rw [Function.update_of_ne here] at live
        rw [Function.update_of_ne here'] at live'
        exact ok.single s inTable s' inTable' key' value₁ value₂ live live'

/-- Empty an unmarked slot, or leave a tombstone in any slot. -/
theorem erase {s : Nat} {rest : Slot κ ν} (notLive : ∀ key value, rest ≠ .live key value)
    (unmarked : rest = .empty → passed s = false) :
    Searchable n path (Function.update slots s rest) passed where
  found s' inTable key value live := by
    by_cases here : s' = s
    · rw [here, Function.update_self] at live
      exact absurd live (notLive key value)
    · rw [Function.update_of_ne here] at live
      obtain ⟨i, bound, there, before⟩ := ok.found s' inTable key value live
      refine ⟨i, bound, there, ?_⟩
      intro j earlier
      obtain ⟨nonempty, marked⟩ := before j earlier
      refine ⟨?_, marked⟩
      by_cases passing : path key j = s
      · rw [passing, Function.update_self]
        intro empty
        rw [passing, unmarked empty] at marked
        cases marked
      · rw [Function.update_of_ne passing]
        exact nonempty
  single s₁ inTable₁ s₂ inTable₂ key value₁ value₂ live₁ live₂ := by
    have elsewhere : ∀ s' value', Function.update slots s rest s' = .live key value' →
        slots s' = .live key value' := by
      intro s' value' live
      by_cases here : s' = s
      · rw [here, Function.update_self] at live
        exact absurd live (notLive key value')
      · rwa [Function.update_of_ne here] at live
    exact ok.single s₁ inTable₁ s₂ inTable₂ key value₁ value₂ (elsewhere s₁ value₁ live₁)
      (elsewhere s₂ value₂ live₂)

end Searchable

theorem holds_update_live {s : Nat} (inTable : s < n) {key : κ} {value : ν}
    (free : ∀ key' value', slots s ≠ .live key' value') (key' : κ) (value' : ν) :
    Holds n (Function.update slots s (.live key value)) key' value' ↔
      (key' = key ∧ value' = value) ∨ Holds n slots key' value' := by
  constructor
  · rintro ⟨s', inTable', live⟩
    by_cases here : s' = s
    · rw [here, Function.update_self] at live
      injection live with sameKey sameValue
      exact .inl ⟨sameKey.symm, sameValue.symm⟩
    · rw [Function.update_of_ne here] at live
      exact .inr ⟨s', inTable', live⟩
  · rintro (⟨rfl, rfl⟩ | ⟨s', inTable', live⟩)
    · exact ⟨s, inTable, Function.update_self ..⟩
    · refine ⟨s', inTable', ?_⟩
      rw [Function.update_of_ne]
      · exact live
      · rintro rfl
        exact free key' value' live

theorem holds_update_free (ok : Searchable n path slots passed) {s : Nat} (inTable : s < n)
    {key : κ} {value : ν} (live : slots s = .live key value) {rest : Slot κ ν}
    (notLive : ∀ key value, rest ≠ .live key value) (key' : κ) (value' : ν) :
    Holds n (Function.update slots s rest) key' value' ↔
      key' ≠ key ∧ Holds n slots key' value' := by
  constructor
  · rintro ⟨s', inTable', live'⟩
    by_cases here : s' = s
    · rw [here, Function.update_self] at live'
      exact absurd live' (notLive key' value')
    · rw [Function.update_of_ne here] at live'
      refine ⟨?_, s', inTable', live'⟩
      rintro rfl
      exact here (ok.single s' inTable' s inTable key' value' value live' live)
  · rintro ⟨other, s', inTable', live'⟩
    refine ⟨s', inTable', ?_⟩
    rw [Function.update_of_ne]
    · exact live'
    · rintro rfl
      rw [live] at live'
      injection live' with sameKey _
      exact other sameKey.symm

end Tables

section Counting

variable {α : Type*} (p : α → Bool)

/-- The number of the first `n` slots that satisfy a predicate. -/
def countSlots (n : Nat) (slots : Nat → α) : Nat := (List.range n).countP fun s => p (slots s)

theorem countSlots_succ (n : Nat) (slots : Nat → α) :
    countSlots p (n + 1) slots = countSlots p n slots + (p (slots n)).toNat := by
  rw [countSlots, List.range_succ, List.countP_append, List.countP_singleton, countSlots]
  cases p (slots n) <;> rfl

theorem countSlots_le (n : Nat) (slots : Nat → α) : countSlots p n slots ≤ n := by
  calc countSlots p n slots ≤ (List.range n).length := List.countP_le_length
    _ = n := List.length_range

theorem countSlots_congr {n : Nat} {slots slots' : Nat → α}
    (same : ∀ s < n, p (slots s) = p (slots' s)) :
    countSlots p n slots = countSlots p n slots' := by
  apply List.countP_congr
  intro s member
  rw [same s (List.mem_range.mp member)]

theorem countSlots_update_above {n s : Nat} (above : n ≤ s) (slots : Nat → α) (x : α) :
    countSlots p n (Function.update slots s x) = countSlots p n slots := by
  apply countSlots_congr
  intro s' below
  rw [Function.update_of_ne (Nat.ne_of_lt (below.trans_le above))]

/-- A change of one slot changes the count by that slot. -/
theorem countSlots_update {n s : Nat} (inTable : s < n) (slots : Nat → α) (x : α) :
    countSlots p n (Function.update slots s x) + (p (slots s)).toNat =
      countSlots p n slots + (p x).toNat := by
  induction n with
  | zero => exact absurd inTable (Nat.not_lt_zero s)
  | succ n ih =>
    rw [countSlots_succ, countSlots_succ]
    rcases Nat.lt_succ_iff_lt_or_eq.mp inTable with below | rfl
    · rw [Function.update_of_ne (Nat.ne_of_gt below)]
      have counted := ih below
      omega
    · rw [Function.update_self, countSlots_update_above p le_rfl]
      omega

theorem countSlots_eq_zero {n : Nat} {slots : Nat → α} (none : ∀ s < n, p (slots s) = false) :
    countSlots p n slots = 0 := by
  apply List.countP_eq_zero.mpr
  intro s member
  simp [none s (List.mem_range.mp member)]

theorem exists_of_countSlots_lt {n : Nat} {slots : Nat → α} (fewer : countSlots p n slots < n) :
    ∃ s < n, p (slots s) = false := by
  by_contra all
  push Not at all
  have every : countSlots p n slots = (List.range n).length := by
    apply List.countP_eq_length.mpr
    intro s member
    have counted := all s (List.mem_range.mp member)
    simpa using counted
  rw [List.length_range] at every
  omega

theorem countSlots_pos {n s : Nat} {slots : Nat → α} (inTable : s < n)
    (counted : p (slots s) = true) : 0 < countSlots p n slots :=
  List.countP_pos_iff.mpr ⟨s, List.mem_range.mpr inTable, counted⟩

end Counting

end Ydb.Lib
