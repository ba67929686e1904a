import Mathlib.Data.List.Basic

/-!
# Pieces of a sequence

A delimiter that is not empty cuts a sequence into pieces: each cut is at the first
occurrence behind the one before. A sequence without the delimiter is one piece, so that
there is always a piece; behind a delimiter at the end there is an empty one.
-/

namespace Ydb.Lib

universe u
variable {α : Type u} [DecidableEq α] (delimiter : List α)

/-- What is before and behind the first occurrence of the delimiter. -/
def cut : List α → Option (List α × List α)
  | [] => if delimiter = [] then some ([], []) else none
  | a :: input =>
    if delimiter.isPrefixOf (a :: input) then some ([], (a :: input).drop delimiter.length)
    else (cut input).map fun (front, back) => (a :: front, back)

/-- All pieces. -/
def pieces (input : List α) : List (List α) :=
  match cut delimiter input with
  | none => [input]
  | some (front, back) => if back.length < input.length then front :: pieces back else [input]
termination_by input.length

/-- What is behind so many delimiters, or how many of them were not found. -/
def skipPieces : Nat → List α → Option (List α) × Nat
  | 0, input => (some input, 0)
  | n + 1, input =>
    match cut delimiter input with
    | none => (none, n + 1)
    | some (_, back) => skipPieces n back

variable {delimiter} {input front back : List α}

theorem cut_eq (found : cut delimiter input = some (front, back)) :
    input = front ++ delimiter ++ back := by
  induction input generalizing front with
  | nil =>
    rw [cut] at found
    split at found
    · cases found
      simp [*]
    · cases found
  | cons a input ih =>
    rw [cut] at found
    by_cases here : delimiter.isPrefixOf (a :: input)
    · rw [if_pos here] at found
      cases found
      obtain ⟨back, parts⟩ := List.isPrefixOf_iff_prefix.mp here
      rw [← parts, List.drop_left, List.nil_append]
    · rw [if_neg here] at found
      obtain ⟨⟨front', back'⟩, cut', same⟩ := Option.map_eq_some_iff.mp found
      cases same
      rw [ih cut', List.cons_append, List.cons_append]

theorem cut_length (some : delimiter ≠ []) (found : cut delimiter input = .some (front, back)) :
    back.length < input.length := by
  have positive := List.length_pos_iff.mpr some
  rw [cut_eq found, List.length_append, List.length_append]
  omega

theorem pieces_of_none (none : cut delimiter input = .none) : pieces delimiter input = [input] := by
  rw [pieces, none]

theorem pieces_of_some (some : delimiter ≠ []) (found : cut delimiter input = .some (front, back)) :
    pieces delimiter input = front :: pieces delimiter back := by
  rw [pieces, found]
  exact if_pos (cut_length some found)

theorem pieces_ne_nil (some : delimiter ≠ []) (input : List α) : pieces delimiter input ≠ [] := by
  cases found : cut delimiter input with
  | none =>
    rw [pieces_of_none found]
    exact List.cons_ne_nil _ _
  | some parts =>
    rw [pieces_of_some some found]
    exact List.cons_ne_nil _ _

/-- At a position where the delimiter does not stand, the search goes on behind it. -/
theorem cut_cons {a : α} (other : ¬ delimiter <+: a :: input) :
    cut delimiter (a :: input) = (cut delimiter input).map fun (front, back) => (a :: front, back) := by
  rw [cut, if_neg fun here => other (List.isPrefixOf_iff_prefix.mp here)]

theorem cut_prefix (some : delimiter ≠ []) (back : List α) :
    cut delimiter (delimiter ++ back) = .some ([], back) := by
  cases delimiter with
  | nil => exact absurd rfl some
  | cons a delimiter =>
    have here : (a :: delimiter).isPrefixOf (a :: (delimiter ++ back)) = true :=
      List.isPrefixOf_iff_prefix.mpr ⟨back, rfl⟩
    rw [List.cons_append, cut, if_pos here]
    simp

/-- A sequence that is too short has no delimiter. -/
theorem cut_short (short : input.length < delimiter.length) : cut delimiter input = none := by
  cases found : cut delimiter input with
  | none => rfl
  | some parts =>
    obtain ⟨front, back⟩ := parts
    have length := congrArg List.length (cut_eq found)
    rw [List.length_append, List.length_append] at length
    omega

theorem skipPieces_cons {a : α} (other : ¬ delimiter <+: a :: input) (n : Nat) :
    skipPieces delimiter (n + 1) (a :: input) = skipPieces delimiter (n + 1) input := by
  rw [skipPieces, skipPieces, cut_cons other]
  cases cut delimiter input <;> rfl

theorem skipPieces_prefix (some : delimiter ≠ []) (n : Nat) (back : List α) :
    skipPieces delimiter (n + 1) (delimiter ++ back) = skipPieces delimiter n back := by
  rw [skipPieces, cut_prefix some]

/-- Skipping succeeds as long as there are pieces left, and is in their places. -/
theorem skipPieces_spec (some : delimiter ≠ []) (n : Nat) (input : List α) :
    (∃ back, skipPieces delimiter n input = (.some back, 0) ∧ n < (pieces delimiter input).length ∧
      back <:+ input ∧ pieces delimiter back = (pieces delimiter input).drop n) ∨
    (skipPieces delimiter n input = (.none, n + 1 - (pieces delimiter input).length) ∧
      (pieces delimiter input).length ≤ n) := by
  induction n generalizing input with
  | zero => exact .inl ⟨input, rfl, List.length_pos_iff.mpr (pieces_ne_nil some input), List.suffix_rfl, rfl⟩
  | succ n ih =>
    rw [skipPieces]
    cases found : cut delimiter input with
    | none =>
      rw [pieces_of_none found]
      exact .inr ⟨rfl, Nat.le_add_left 1 n⟩
    | some parts =>
      obtain ⟨front, back⟩ := parts
      rw [pieces_of_some some found, List.length_cons, List.drop_succ_cons]
      dsimp only
      obtain ⟨rest, skipped, more, last, same⟩ | ⟨stopped, few⟩ := ih back
      · refine .inl ⟨rest, skipped, by omega, last.trans ?_, same⟩
        rw [cut_eq found]
        exact List.suffix_append _ _
      · exact .inr ⟨by rw [stopped]; congr 1; omega, by omega⟩

end Ydb.Lib
