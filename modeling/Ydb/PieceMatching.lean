import Ydb.Lib.Pieces

/-!
# Matching delimiters

The search for a number of delimiters in a string. It is done byte by byte: the first byte
of the delimiter is sought, then the others are compared.
-/

namespace Ydb

open Lib

/-- How comparing the delimiter ends: it is found, with the position behind it, or lost, or the string
ends first. -/
inductive DelimiterMatch
  | found (src_ptr : Nat)
  | lost
  | noMatch

/-- The quick search for the first byte of the delimiter, for so many turns. Reading a byte that is not
there has no result. -/
def quickFind (src : List UInt8) (first : UInt8) : Nat → Nat → Option (Option Nat)
  | 0, _ => none
  | turns + 1, src_ptr => do
    let b ← src[src_ptr]?
    if b ≠ first then
      if src_ptr + 1 = src.length then some none
      else quickFind src first turns (src_ptr + 1)
    else some (some src_ptr)

/-- The comparison with what is left of the delimiter. -/
def matchRest (src : List UInt8) : List UInt8 → Nat → Option DelimiterMatch
  | [], _ => none
  | d :: pdel, src_ptr => do
    let b ← src[src_ptr]?
    if b = d then
      if pdel = [] then some (.found (src_ptr + 1))
      else if src_ptr + 1 = src.length then some .noMatch
      else matchRest src pdel (src_ptr + 1)
    else some .lost

/-- The loop of `matchb`, for so many turns: the position behind the last delimiter, if all were found,
and how many were not. -/
def matchLoop (src del : List UInt8) : Nat → Nat → Nat → Option (Option Nat × Nat)
  | 0, _, _ => none
  | turns + 1, src_ptr, numpcs_unmatched =>
    if src_ptr < src.length then do
      let first ← del[0]?
      let start ← quickFind src first src.length src_ptr
      match start with
      | none => some (none, numpcs_unmatched)
      | some start =>
        let outcome ← matchRest src del start
        match outcome with
        | .found src_ptr =>
          if numpcs_unmatched - 1 = 0 then some (some src_ptr, 0)
          else matchLoop src del turns src_ptr (numpcs_unmatched - 1)
        | .lost => matchLoop src del turns (start + 1) numpcs_unmatched
        | .noMatch => some (none, numpcs_unmatched)
    else some (none, numpcs_unmatched)

/-- The position behind the delimiters, or the end of the string; the result, which is zero if there were
too few; and how many were not found. -/
def matchb (del src : List UInt8) (numpcs : Nat) : Option (Nat × Nat × Nat) :=
  if del.length = 0 then some (0, 1, 0)
  else if src.length < del.length then some (src.length, 0, numpcs)
  else
    (matchLoop src del (src.length + 1) 0 numpcs).map fun (src_ptr, numpcs_unmatched) =>
      match src_ptr with
      | some src_ptr => (src_ptr, 1 + src_ptr, 0)
      | none => (src.length, 0, numpcs_unmatched)

/-! ## What is found -/

variable {src del : List UInt8} {src_ptr turns : Nat}

theorem quickFind_turn {first : UInt8} (inside : src_ptr < src.length) :
    quickFind src first (turns + 1) src_ptr =
      if src[src_ptr] ≠ first then
        if src_ptr + 1 = src.length then some none else quickFind src first turns (src_ptr + 1)
      else some (some src_ptr) := by
  rw [quickFind, List.getElem?_eq_getElem inside]
  rfl

theorem matchRest_turn {d : UInt8} {pdel : List UInt8} (inside : src_ptr < src.length) :
    matchRest src (d :: pdel) src_ptr =
      if src[src_ptr] = d then
        if pdel = [] then some (.found (src_ptr + 1))
        else if src_ptr + 1 = src.length then some .noMatch
        else matchRest src pdel (src_ptr + 1)
      else some .lost := by
  rw [matchRest, List.getElem?_eq_getElem inside]
  rfl

/-- The first byte of the delimiter is found before any delimiter, or there is none. -/
theorem quickFind_spec {first : UInt8} {rest : List UInt8} (inside : src_ptr < src.length)
    (enough : src.length - src_ptr ≤ turns) :
    (∃ start, quickFind src first turns src_ptr = some (some start) ∧ src_ptr ≤ start ∧ start < src.length ∧
      src[start]? = some first ∧
      ∀ n, skipPieces (first :: rest) (n + 1) (src.drop src_ptr) =
        skipPieces (first :: rest) (n + 1) (src.drop start)) ∨
    (quickFind src first turns src_ptr = some none ∧
      ∀ n, skipPieces (first :: rest) (n + 1) (src.drop src_ptr) = (none, n + 1)) := by
  induction turns generalizing src_ptr with
  | zero => omega
  | succ turns ih =>
    have split : src.drop src_ptr = src[src_ptr] :: src.drop (src_ptr + 1) := List.drop_eq_getElem_cons inside
    rw [quickFind_turn inside]
    by_cases here : src[src_ptr] = first
    · rw [if_neg (not_not_intro here)]
      exact .inl ⟨src_ptr, rfl, Nat.le_refl _, inside, by rw [List.getElem?_eq_getElem inside, here], fun _ => rfl⟩
    · have other : ¬ first :: rest <+: src[src_ptr] :: src.drop (src_ptr + 1) := by
        intro there
        exact here (List.cons_prefix_cons.mp there).1.symm
      rw [if_pos here, split]
      by_cases last : src_ptr + 1 = src.length
      · have none : src.drop (src_ptr + 1) = [] := List.drop_eq_nil_of_le (Nat.le_of_eq last.symm)
        rw [if_pos last]
        refine .inr ⟨rfl, fun n => ?_⟩
        rw [skipPieces_cons other, none]
        rfl
      · have next : src_ptr + 1 < src.length := by omega
        rw [if_neg last]
        rcases ih next (by omega) with ⟨start, found, after, below, there, same⟩ |
          ⟨found, none⟩
        · exact .inl ⟨start, found, by omega, below, there, fun n => by rw [skipPieces_cons other, same]⟩
        · exact .inr ⟨found, fun n => by rw [skipPieces_cons other, none]⟩

/-- Comparing the delimiter finds out whether it stands there. -/
theorem matchRest_spec {pdel : List UInt8} (some : pdel ≠ []) (inside : src_ptr < src.length) :
    (matchRest src pdel src_ptr = .some (.found (src_ptr + pdel.length)) ∧ pdel <+: src.drop src_ptr) ∨
    (matchRest src pdel src_ptr = .some .lost ∧ ¬ pdel <+: src.drop src_ptr) ∨
    (matchRest src pdel src_ptr = .some .noMatch ∧ src.length < src_ptr + pdel.length) := by
  induction pdel generalizing src_ptr with
  | nil => exact absurd rfl some
  | cons d pdel ih =>
    have split : src.drop src_ptr = src[src_ptr] :: src.drop (src_ptr + 1) := List.drop_eq_getElem_cons inside
    rw [matchRest_turn inside, split, List.length_cons, List.cons_prefix_cons]
    by_cases same : src[src_ptr] = d
    · rw [if_pos same]
      by_cases last : pdel = []
      · subst last
        exact .inl ⟨if_pos rfl, same.symm, List.nil_prefix⟩
      · have positive := List.length_pos_iff.mpr last
        rw [if_neg last]
        by_cases stop : src_ptr + 1 = src.length
        · rw [if_pos stop]
          exact .inr (.inr ⟨rfl, by omega⟩)
        · have next : src_ptr + 1 < src.length := by omega
          have place : src_ptr + (pdel.length + 1) = src_ptr + 1 + pdel.length := by omega
          rw [if_neg stop, place]
          rcases ih last next with ⟨found, there⟩ | ⟨lost, other⟩ | ⟨noMatch, short⟩
          · exact .inl ⟨found, same.symm, there⟩
          · exact .inr (.inl ⟨lost, fun there => other there.2⟩)
          · exact .inr (.inr ⟨noMatch, short⟩)
    · rw [if_neg same]
      exact .inr (.inl ⟨rfl, fun there => same there.1.symm⟩)

/-- The position in a string where a rest of it begins. -/
def restPosition (src : List UInt8) (rest : Option (List UInt8)) : Option Nat :=
  rest.map fun rest => src.length - rest.length

/-- The loop skips pieces. -/
theorem matchLoop_spec (some : del ≠ []) {numpcs : Nat} (positive : 0 < numpcs) (inside : src_ptr ≤ src.length)
    (enough : src.length - src_ptr < turns) :
    matchLoop src del turns src_ptr numpcs =
      .some (restPosition src (skipPieces del numpcs (src.drop src_ptr)).1,
        (skipPieces del numpcs (src.drop src_ptr)).2) := by
  obtain ⟨n, rfl⟩ : ∃ n, numpcs = n + 1 := ⟨numpcs - 1, by omega⟩
  clear positive
  induction turns generalizing src_ptr n with
  | zero => omega
  | succ turns ih =>
    rw [matchLoop]
    by_cases below : src_ptr < src.length
    · obtain ⟨first, rest, rfl⟩ := List.exists_cons_of_ne_nil some
      rw [if_pos below]
      rcases quickFind_spec below (Nat.sub_le src.length src_ptr) with
        ⟨start, found, after, inside', byte, same⟩ | ⟨found, none⟩
      · change ((quickFind src first src.length src_ptr).bind fun start => _) = _
        rw [found, same n]
        change ((matchRest src (first :: rest) start).bind fun outcome => _) = _
        rcases matchRest_spec some inside' with ⟨there, back, parts⟩ | ⟨lost, other⟩ | ⟨noMatch, short⟩
        · have behind : back = src.drop (start + (first :: rest).length) := by
            rw [← List.drop_drop, ← parts, List.drop_left]
          have length := congrArg List.length parts
          rw [List.length_append, List.length_drop] at length
          rw [there, ← parts, skipPieces_prefix some]
          change (if n + 1 - 1 = 0 then _ else _) = _
          rw [Nat.add_sub_cancel]
          cases n with
          | zero =>
            rw [if_pos rfl]
            simp only [skipPieces, restPosition, Option.map_some]
            congr 2
            congr 1
            omega
          | succ n =>
            have next : start + (first :: rest).length ≤ src.length := by omega
            rw [if_neg (Nat.succ_ne_zero n), behind]
            exact ih next (by rw [List.length_cons]; omega) n
        · have next : start + 1 ≤ src.length := inside'
          have split : src.drop start = src[start] :: src.drop (start + 1) := List.drop_eq_getElem_cons inside'
          rw [lost, split]
          rw [split] at other
          rw [skipPieces_cons other]
          exact ih next (by omega) n
        · have none : cut (first :: rest) (src.drop start) = .none := by
            apply cut_short
            rw [List.length_drop]
            omega
          rw [noMatch, skipPieces, none]
          rfl
      · change ((quickFind src first src.length src_ptr).bind fun start => _) = _
        rw [found, none n]
        rfl
    · have beyond : src.drop src_ptr = [] := List.drop_eq_nil_of_le (by omega)
      have none : cut del ([] : List UInt8) = .none := cut_short (List.length_pos_iff.mpr some)
      rw [if_neg below, beyond, skipPieces, none]
      rfl

/-- The result of `matchb`, from the pieces that are skipped. -/
def matchResult (src : List UInt8) : Option (List UInt8) × Nat → Nat × Nat × Nat
  | (some rest, _) => (src.length - rest.length, 1 + (src.length - rest.length), 0)
  | (none, numpcs) => (src.length, 0, numpcs)

/-- `matchb` reads no byte outside of the string, and finds what is behind the delimiters. -/
theorem matchb_spec (some : del ≠ []) {numpcs : Nat} (positive : 0 < numpcs) (src : List UInt8) :
    matchb del src numpcs = .some (matchResult src (skipPieces del numpcs src)) := by
  have length := List.length_pos_iff.mpr some
  rw [matchb, if_neg (by omega)]
  by_cases short : src.length < del.length
  · obtain ⟨n, rfl⟩ : ∃ n, numpcs = n + 1 := ⟨numpcs - 1, by omega⟩
    rw [if_pos short, skipPieces, cut_short short]
    rfl
  · rw [if_neg short, matchLoop_spec some positive (Nat.zero_le _) (by omega), List.drop_zero]
    obtain ⟨rest, missing⟩ := skipPieces del numpcs src
    cases rest <;> rfl

end Ydb
