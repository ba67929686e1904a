import Mathlib.Order.Basic

/-!
# Sequences separated at their first difference

Two sequences diverge when they agree on a prefix and then hold two different
elements; the order of those elements decides every later comparison, whatever
follows. Divergence is stronger than lexicographic precedence: a sequence never
diverges from its own extension. It is therefore preserved by appending
arbitrary suffixes and is reversed by an order-reversing map of the elements.
-/

namespace Ydb.Lib

universe u v
variable {α : Type u} {β : Type v}

/-- The sequences agree up to a position at which the left element is smaller. -/
inductive Diverges [LT α] : List α → List α → Prop
  | here {x y : α} {left right : List α} (smaller : x < y) : Diverges (x :: left) (y :: right)
  | later {x : α} {left right : List α} (rest : Diverges left right) :
      Diverges (x :: left) (x :: right)

namespace Diverges

theorem cons_iff [LT α] {x y : α} {left right : List α} :
    Diverges (x :: left) (y :: right) ↔ x < y ∨ (x = y ∧ Diverges left right) := by
  constructor
  · rintro (smaller | rest)
    · exact .inl smaller
    · exact .inr ⟨rfl, rest⟩
  · rintro (smaller | ⟨rfl, rest⟩)
    · exact .here smaller
    · exact .later rest

/-- Suffixes cannot undo a difference that has already been met. -/
theorem append [LT α] {left right : List α} (apart : Diverges left right) (after beyond : List α) :
    Diverges (left ++ after) (right ++ beyond) := by
  induction apart with
  | here smaller => exact .here smaller
  | later rest ih => exact .later ih

/-- A shared prefix does not affect divergence. -/
theorem prepend [LT α] {left right : List α} (apart : Diverges left right) (common : List α) :
    Diverges (common ++ left) (common ++ right) := by
  induction common with
  | nil => exact apart
  | cons first rest ih => exact .later ih

/-- An order-reversing map of the elements exchanges the two sequences. -/
theorem map_reversing [LT α] [LT β] {f : α → β} {left right : List α}
    (apart : Diverges left right) (reversing : ∀ x y, x < y → f y < f x) :
    Diverges (right.map f) (left.map f) := by
  induction apart with
  | here smaller => exact .here (reversing _ _ smaller)
  | later rest ih => exact .later ih

section Comparison

variable [Ord α] [LT α] [LE α] [Std.LawfulOrderOrd α] [Std.LawfulOrderLT α]
variable [Std.LawfulEqOrd α]

/-- Lexicographic comparison sees a divergence as a strict precedence. -/
theorem compare_eq_lt {left right : List α} (apart : Diverges left right) :
    compare left right = .lt := by
  induction apart with
  | here smaller =>
    rw [List.compare_eq_compareLex, List.compareLex_cons_cons,
      Std.compare_eq_lt.mpr smaller, Ordering.lt_then]
  | later rest ih =>
    rw [List.compare_eq_compareLex, List.compareLex_cons_cons,
      Std.LawfulEqOrd.compare_eq_iff_eq.mpr rfl, Ordering.eq_then]
    exact ih

/-- The mirrored form of `compare_eq_lt`. -/
theorem compare_eq_gt {left right : List α} (apart : Diverges left right) :
    compare right left = .gt := by
  induction apart with
  | here smaller =>
    rw [List.compare_eq_compareLex, List.compareLex_cons_cons,
      Std.compare_eq_gt.mpr smaller, Ordering.gt_then]
  | later rest ih =>
    rw [List.compare_eq_compareLex, List.compareLex_cons_cons,
      Std.LawfulEqOrd.compare_eq_iff_eq.mpr rfl, Ordering.eq_then]
    exact ih

end Comparison

end Diverges

/-- A shared prefix cancels in a lexicographic comparison. -/
theorem compare_append_left [Ord α] [Std.LawfulEqOrd α] (common left right : List α) :
    compare (common ++ left) (common ++ right) = compare left right := by
  induction common with
  | nil => rfl
  | cons first rest ih =>
    rw [List.compare_eq_compareLex, List.cons_append, List.cons_append,
      List.compareLex_cons_cons, Std.LawfulEqOrd.compare_eq_iff_eq.mpr rfl, Ordering.eq_then]
    exact ih

end Ydb.Lib
