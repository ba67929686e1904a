import Mathlib.Data.List.Basic
import Mathlib.Data.Nat.ModEq
import Mathlib.Logic.Function.Basic

/-!
# Ring order

A ring of `N` slots keeps its entries from the slot `i` up to, and without, the slot
`j`, and goes on at slot zero after the last one. It is empty when the two are equal,
and never holds `N` entries. `ringList` lists the entries in this order. Walking along
an array is described once, by the entries that satisfy the test.
-/

namespace Ydb.Lib

variable {α : Type*}

/-- The entries from slot `i` up to slot `j`. -/
def slice (a : Nat → α) (i j : Nat) : List α := (List.range' i (j - i)).map a

/-- The entries of a ring, in order. -/
def ringList (N : Nat) (a : Nat → α) (i j : Nat) : List α :=
  if i ≤ j then slice a i j else slice a i N ++ slice a 0 j

/-- The slot after `i`. -/
def ringNext (N i : Nat) : Nat := if N = i + 1 then 0 else i + 1

section Slices

variable {a b : Nat → α} {i j k : Nat}

@[simp] theorem slice_self (a : Nat → α) (i : Nat) : slice a i i = [] := by
  simp [slice]

theorem slice_cons (a : Nat → α) (less : i < j) : slice a i j = a i :: slice a (i + 1) j := by
  obtain ⟨n, rfl⟩ := Nat.exists_eq_add_of_lt less
  have first : i + n + 1 - i = n + 1 := by omega
  have rest : i + n + 1 - (i + 1) = n := by omega
  rw [slice, slice, first, rest, List.range'_succ, List.map_cons]

theorem slice_append (a : Nat → α) (first : i ≤ j) (second : j ≤ k) :
    slice a i j ++ slice a j k = slice a i k := by
  obtain ⟨m, rfl⟩ := Nat.exists_eq_add_of_le first
  obtain ⟨n, rfl⟩ := Nat.exists_eq_add_of_le second
  have widths : i + m - i = m ∧ i + m + n - (i + m) = n ∧ i + m + n - i = m + n := by omega
  rw [slice, slice, slice, widths.1, widths.2.1, widths.2.2, ← List.map_append, ← List.range'_append_1]

theorem slice_concat (a : Nat → α) (order : i ≤ j) : slice a i (j + 1) = slice a i j ++ [a j] := by
  rw [← slice_append a order (Nat.le_succ j), slice_cons a (Nat.lt_succ_self j), slice_self]

theorem slice_congr (same : ∀ n, i ≤ n → n < j → a n = b n) : slice a i j = slice b i j := by
  apply List.map_congr_left
  intro n member
  rw [List.mem_range'_1] at member
  exact same n member.1 (by omega)

theorem mem_slice {x : α} : x ∈ slice a i j ↔ ∃ n, i ≤ n ∧ n < j ∧ a n = x := by
  rw [slice, List.mem_map]
  constructor
  · rintro ⟨n, member, same⟩
    rw [List.mem_range'_1] at member
    exact ⟨n, member.1, by omega, same⟩
  · rintro ⟨n, above, below, same⟩
    exact ⟨n, List.mem_range'_1.mpr ⟨above, by omega⟩, same⟩

end Slices

section Rings

variable {N : Nat} {a : Nat → α} {i j k : Nat}

@[simp] theorem ringList_self (N : Nat) (a : Nat → α) (i : Nat) : ringList N a i i = [] := by
  rw [ringList, if_pos (Nat.le_refl i), slice_self]

/-- The first entry of a ring that is not empty. -/
theorem ringList_cons (below : i < N) (some : i ≠ j) :
    ∃ rest, ringList N a i j = a i :: rest := by
  unfold ringList
  split
  · exact ⟨_, slice_cons a (by omega)⟩
  · rw [slice_cons a below]
    exact ⟨_, rfl⟩

/-- A slot is inside the ring. -/
def InRing (N i j n : Nat) : Prop := if i ≤ j then i ≤ n ∧ n < j else (i ≤ n ∧ n < N) ∨ n < j

theorem InRing.ne_end {n : Nat} (inside : InRing N i j n) : n ≠ j := by
  unfold InRing at inside
  split at inside <;> omega

/-- A slot stays inside when an entry is appended. -/
theorem InRing.push {n : Nat} (inside : InRing N i j n) (below : i < N) (free : ringNext N j ≠ i) :
    InRing N i (ringNext N j) n := by
  unfold ringNext at free ⊢
  unfold InRing at inside ⊢
  by_cases last : N = j + 1
  · rw [if_pos last] at free ⊢
    split at inside <;> split <;> omega
  · rw [if_neg last] at free ⊢
    split at inside <;> split <;> omega

/-- The slot of an appended entry. -/
theorem inRing_pushed (below : i < N) (free : ringNext N j ≠ i) : InRing N i (ringNext N j) j := by
  unfold ringNext at free ⊢
  unfold InRing
  by_cases last : N = j + 1
  · rw [if_pos last] at free ⊢
    split <;> omega
  · rw [if_neg last] at free ⊢
    split <;> omega

theorem mem_ringList {x : α} : x ∈ ringList N a i j ↔ ∃ n, InRing N i j n ∧ a n = x := by
  unfold ringList InRing
  split
  · simp only [mem_slice, and_assoc]
  · simp only [List.mem_append, mem_slice]
    constructor
    · rintro (⟨n, above, below, same⟩ | ⟨n, _, below, same⟩)
      · exact ⟨n, .inl ⟨above, below⟩, same⟩
      · exact ⟨n, .inr below, same⟩
    · rintro ⟨n, ⟨above, below⟩ | below, same⟩
      · exact .inl ⟨n, above, below, same⟩
      · exact .inr ⟨n, Nat.zero_le n, below, same⟩

/-- Appending an entry in the slot `j` of a ring that stays short of full. -/
theorem ringList_push (below : i < N) (free : ringNext N j ≠ i) (x : α) :
    ringList N (Function.update a j x) i (ringNext N j) = ringList N a i j ++ [x] := by
  have others : ∀ n, n ≠ j → Function.update a j x n = a n := fun n differ =>
    Function.update_of_ne differ x a
  have placed : Function.update a j x j = x := Function.update_self j x a
  unfold ringNext at free ⊢
  unfold ringList
  by_cases last : N = j + 1
  · rw [if_pos last] at free ⊢
    have order : i ≤ j := by omega
    rw [if_neg (by omega), if_pos order, slice_self, List.append_nil, last, slice_concat _ order, placed,
      slice_congr fun n above below => others n (by omega)]
  · rw [if_neg last] at free ⊢
    by_cases order : i ≤ j
    · rw [if_pos (by omega), if_pos order, slice_concat _ order, placed,
        slice_congr fun n above below => others n (by omega)]
    · rw [if_neg (by omega), if_neg order, slice_concat _ (Nat.zero_le j), placed, List.append_assoc,
        slice_congr fun n above below => others n (by omega),
        slice_congr (a := Function.update a j x) fun n above below => others n (by omega)]

end Rings

theorem slice_map {β : Type*} (f : α → β) (a : Nat → α) (i j : Nat) :
    (slice a i j).map f = slice (f ∘ a) i j := by
  rw [slice, slice, List.map_map]

theorem ringList_map {β : Type*} (f : α → β) (N : Nat) (a : Nat → α) (i j : Nat) :
    (ringList N a i j).map f = ringList N (f ∘ a) i j := by
  unfold ringList
  split
  · exact slice_map f a i j
  · rw [List.map_append, slice_map, slice_map]

/-- Less than a whole round apart, no two addresses have the same place. -/
theorem eq_of_mod_eq_of_near {size x y : Nat} (same : x % size = y % size) (above : x < y + size)
    (below : y < x + size) : x = y := by
  rcases Nat.le_total x y with order | order
  · have divides : size ∣ y - x := (Nat.modEq_iff_dvd' order).mp same
    have none := Nat.eq_zero_of_dvd_of_lt divides (by omega)
    omega
  · have divides : size ∣ x - y := (Nat.modEq_iff_dvd' order).mp same.symm
    have none := Nat.eq_zero_of_dvd_of_lt divides (by omega)
    omega

/-! ## Walking along an array -/

/-- Walk at most `fuel` slots while the test holds. -/
def walk (test : α → Bool) (a : Nat → α) : Nat → Nat → Nat
  | 0, i => i
  | fuel + 1, i => if test (a i) then walk test a fuel (i + 1) else i

/-- The walk stops at the first slot that fails the test, or at the end. -/
theorem walk_spec (test : α → Bool) (a : Nat → α) {i j : Nat} (order : i ≤ j) :
    i ≤ walk test a (j - i) i ∧ walk test a (j - i) i ≤ j ∧
      (∀ x ∈ slice a i (walk test a (j - i) i), test x = true) ∧
      (walk test a (j - i) i < j → test (a (walk test a (j - i) i)) = false) := by
  obtain ⟨n, rfl⟩ := Nat.exists_eq_add_of_le order
  rw [Nat.add_sub_cancel_left]
  clear order
  induction n generalizing i with
  | zero =>
    rw [walk]
    refine ⟨Nat.le_refl i, Nat.le_refl i, ?_, fun less => absurd less (Nat.lt_irrefl i)⟩
    intro x member
    rw [slice_self] at member
    cases member
  | succ n ih =>
    rw [walk]
    by_cases holds : test (a i) = true
    · obtain ⟨least, most, passed, stopped⟩ := ih (i := i + 1)
      rw [if_pos holds]
      rw [show i + (n + 1) = i + 1 + n by omega]
      refine ⟨by omega, most, ?_, stopped⟩
      intro x member
      rw [slice_cons a (by omega), List.mem_cons] at member
      rcases member with rfl | member
      · exact holds
      · exact passed x member
    · rw [if_neg holds]
      refine ⟨Nat.le_refl i, by omega, ?_, fun _ => Bool.not_eq_true _ ▸ holds⟩
      intro x member
      rw [slice_self] at member
      cases member

end Ydb.Lib
