import Mathlib.Logic.Function.Basic

/-!
# Translation of a text

Each letter of a text that occurs in a search list is replaced by the letter at the same place of a
replacement list, and is dropped when the replacement list is too short. The first place in the search
list counts.
-/

namespace Ydb.Lib

variable {α : Type} [DecidableEq α]

/-- The first place of a letter. -/
def place (search : List α) (letter : α) : Option Nat := search.idxOf? letter

/-- What a letter becomes. -/
def substitute (search replacement : List α) (letter : α) : List α :=
  match place search letter with
  | none => [letter]
  | some i => replacement[i]?.toList

/-- Replace or drop each character by its first place in `search`. -/
def translate (search replacement source : List α) : List α :=
  source.flatMap (substitute search replacement)

variable {search replacement : List α} {letter other : α}

theorem place_first : place (letter :: search) letter = some 0 := by
  unfold place
  rw [List.idxOf?_cons, beq_self_eq_true, if_pos rfl]

theorem place_later (different : other ≠ letter) :
    place (other :: search) letter = (place search letter).map (· + 1) := by
  unfold place
  rw [List.idxOf?_cons, beq_false_of_ne different, if_neg Bool.false_ne_true]

theorem place_absent (absent : letter ∉ search) : place search letter = none :=
  List.idxOf?_eq_none_iff.mpr absent

theorem substitute_nil : substitute [] replacement letter = [letter] := rfl

theorem substitute_first :
    substitute (letter :: search) replacement letter = replacement.head?.toList := by
  unfold substitute
  rw [place_first, List.head?_eq_getElem?]

theorem substitute_later (different : other ≠ letter) :
    substitute (other :: search) replacement letter = substitute search replacement.tail letter := by
  unfold substitute
  rw [place_later different]
  cases place search letter with
  | none => rfl
  | some i =>
    rw [Option.map_some]
    cases replacement with
    | nil => rfl
    | cons _ replacement => rfl

/-- A letter that is not searched stays. -/
theorem substitute_absent (absent : letter ∉ search) : substitute search replacement letter = [letter] := by
  unfold substitute
  rw [place_absent absent]

end Ydb.Lib
