import Mathlib.Data.List.Basic

/-!
# Where sequences part

Of two sequences in order the smaller one parts from the larger at the first position at
which they differ; it may end there. Among sequences in order, the positions at which
neighbours part decide every other comparison: this is what lets a search skip the
elements that a sequence shares with its predecessor.
-/

namespace Ydb.Lib

universe u
variable {α : Type u}

/-- The length of the common beginning. -/
def commonPrefix [DecidableEq α] : List α → List α → Nat
  | x :: left, y :: right => if x = y then commonPrefix left right + 1 else 0
  | _, _ => 0

theorem commonPrefix_self [DecidableEq α] (a : List α) : commonPrefix a a = a.length := by
  induction a with
  | nil => rfl
  | cons x a ih => rw [commonPrefix, if_pos rfl, ih, List.length_cons]

/-- The left sequence is below the right one, and `n` is the first position at which they
differ. -/
structure PartsAt [LT α] (n : Nat) (left right : List α) : Prop where
  agree : ∀ i < n, left[i]? = right[i]?
  differ : ∃ y, right[n]? = some y ∧ ∀ x, left[n]? = some x → x < y

namespace PartsAt

variable [LT α] {m n : Nat} {a b t : List α}

theorem length_right (parts : PartsAt n a b) : n < b.length := by
  obtain ⟨y, found, _⟩ := parts.differ
  exact (List.getElem?_eq_some_iff.mp found).1

/-- A sequence that shares more with a smaller one than the target does is itself smaller
than the target. -/
theorem follows (below : PartsAt m a t) (shares : PartsAt n a b) (more : m < n) : PartsAt m b t where
  agree := fun i less => (shares.agree i (Nat.lt_trans less more)).symm.trans (below.agree i less)
  differ := by
    obtain ⟨y, found, smaller⟩ := below.differ
    exact ⟨y, found, fun x other => smaller x ((shares.agree m more).trans other)⟩

/-- A sequence that parts from a smaller one before the target does is above the target. -/
theorem overtakes (below : PartsAt m a t) (parts : PartsAt n a b) (less : n < m) : PartsAt n t b where
  agree := fun i smaller =>
    (below.agree i (Nat.lt_trans smaller less)).symm.trans (parts.agree i smaller)
  differ := by
    obtain ⟨y, found, smaller⟩ := parts.differ
    exact ⟨y, found, fun x other => smaller x ((below.agree n less).trans other)⟩

/-- Sequences that part from a smaller one at the same position agree before it. -/
theorem agree_both (below : PartsAt n a t) (parts : PartsAt n a b) : ∀ i < n, t[i]? = b[i]? :=
  fun i less => (below.agree i less).symm.trans (parts.agree i less)

theorem cons_iff {x : α} : PartsAt (n + 1) (x :: a) (x :: b) ↔ PartsAt n a b := by
  constructor
  · intro parts
    refine ⟨fun i less => ?_, by simpa using parts.differ⟩
    simpa using parts.agree (i + 1) (Nat.succ_lt_succ less)
  · intro parts
    refine ⟨fun i less => ?_, by simpa using parts.differ⟩
    cases i with
    | zero => rfl
    | succ i => simpa using parts.agree i (Nat.lt_of_succ_lt_succ less)

/-- The first elements of sequences that part later are the same. -/
theorem uncons (parts : PartsAt (n + 1) a b) :
    ∃ x left right, a = x :: left ∧ b = x :: right ∧ PartsAt n left right := by
  match a, b with
  | _, [] => exact absurd parts.length_right (Nat.not_lt_zero _)
  | [], y :: right =>
    have first := parts.agree 0 (Nat.succ_pos n)
    simp at first
  | x :: left, y :: right =>
    obtain rfl : x = y := by simpa using parts.agree 0 (Nat.succ_pos n)
    exact ⟨x, left, right, rfl, rfl, cons_iff.mp parts⟩

theorem lt (parts : PartsAt n a b) : a < b := by
  induction n generalizing a b with
  | zero =>
    obtain ⟨y, found, smaller⟩ := parts.differ
    match a, b with
    | _, [] => simp at found
    | [], q :: right => exact List.nil_lt_cons q right
    | p :: _, q :: _ =>
      obtain rfl : q = y := by simpa using found
      exact List.cons_lt_cons_iff.mpr (.inl (smaller p rfl))
  | succ n ih =>
    obtain ⟨x, left, right, rfl, rfl, rest⟩ := parts.uncons
    exact List.cons_lt_cons_iff.mpr (.inr ⟨rfl, ih rest⟩)

/-- The position is the length of the common beginning. -/
theorem commonPrefix_eq [DecidableEq α] [Std.Irrefl (α := α) (· < ·)] (parts : PartsAt n a b) :
    commonPrefix a b = n ∧ commonPrefix b a = n := by
  induction n generalizing a b with
  | zero =>
    obtain ⟨y, found, smaller⟩ := parts.differ
    match a, b with
    | _, [] => simp at found
    | [], _ :: _ => exact ⟨rfl, rfl⟩
    | p :: _, q :: _ =>
      obtain rfl : q = y := by simpa using found
      have other : p ≠ q := by
        rintro rfl
        exact Std.Irrefl.irrefl p (smaller p rfl)
      exact ⟨if_neg other, if_neg other.symm⟩
  | succ n ih =>
    obtain ⟨x, left, right, rfl, rfl, rest⟩ := parts.uncons
    obtain ⟨first, second⟩ := ih rest
    rw [commonPrefix, if_pos rfl, first, commonPrefix, if_pos rfl, second]
    exact ⟨rfl, rfl⟩

end PartsAt

/-- Sequences in order part somewhere. -/
theorem exists_partsAt [LT α] {a b : List α} (smaller : a < b) : ∃ n, PartsAt n a b := by
  induction a generalizing b with
  | nil =>
    match b with
    | [] => exact absurd smaller (List.not_lt_nil _)
    | y :: right => exact ⟨0, fun i impossible => absurd impossible (Nat.not_lt_zero i), y, rfl, nofun⟩
  | cons x left ih =>
    match b with
    | [] => exact absurd smaller (List.not_lt_nil _)
    | y :: right =>
      rcases List.cons_lt_cons_iff.mp smaller with less | ⟨rfl, less⟩
      · exact ⟨0, fun i impossible => absurd impossible (Nat.not_lt_zero i), y, rfl,
          fun z first => by obtain rfl : x = z := by simpa using first
                            exact less⟩
      · obtain ⟨n, parts⟩ := ih less
        exact ⟨n + 1, PartsAt.cons_iff.mpr parts⟩

/-- Sequences in order part at the end of their common beginning. -/
theorem partsAt_commonPrefix [LT α] [DecidableEq α] [Std.Irrefl (α := α) (· < ·)] {a b : List α}
    (smaller : a < b) : PartsAt (commonPrefix a b) a b := by
  obtain ⟨n, parts⟩ := exists_partsAt smaller
  rw [parts.commonPrefix_eq.1]
  exact parts

/-- Of three sequences in order, the outer ones share what both share with the one between them. -/
theorem commonPrefix_between [LT α] [DecidableEq α] [Std.Irrefl (α := α) (· < ·)]
    [Trans (α := α) (β := α) (γ := α) (· < ·) (· < ·) (· < ·)] {a b c : List α} (left : a < b) (right : b < c) :
    commonPrefix a c = min (commonPrefix a b) (commonPrefix b c) := by
  have first := partsAt_commonPrefix left
  have second := partsAt_commonPrefix right
  generalize commonPrefix a b = m at first ⊢
  generalize commonPrefix b c = n at second ⊢
  have outer : PartsAt (min m n) a c := by
    refine ⟨fun i less => (first.agree i (by omega)).trans (second.agree i (by omega)), ?_⟩
    cases Nat.lt_trichotomy m n with
    | inl before =>
      obtain ⟨y, found, smaller⟩ := first.differ
      rw [Nat.min_eq_left (Nat.le_of_lt before)]
      exact ⟨y, (second.agree m before).symm.trans found, smaller⟩
    | inr rest =>
      obtain ⟨z, found, smaller⟩ := second.differ
      cases rest with
      | inl same =>
        subst same
        obtain ⟨y, between, less⟩ := first.differ
        rw [Nat.min_self]
        exact ⟨z, found, fun x here => Trans.trans (less x here) (smaller y between)⟩
      | inr behind =>
        rw [Nat.min_eq_right (Nat.le_of_lt behind)]
        exact ⟨z, found, fun x here => smaller x ((first.agree n behind).symm.trans here)⟩
  exact outer.commonPrefix_eq.1

end Ydb.Lib
