import Mathlib.Order.BooleanAlgebra.Set
import Ydb.Lib.TreePath

/-!
# The closest element on a side

Elements are ranked by an ordered key. The closest element of a set towards a side is
the one from which all others lie further on that side. In a list that is sorted
towards the side, the closest element past an entry is the entry that follows it.
-/

namespace Ydb.Lib

variable {α κ : Type*} [Preorder κ] {s : Side} {rank : α → κ} {S : Set α}

/-- The element of the set from which all others lie on the given side, or none where
the set is empty. -/
def Closest (s : Side) (rank : α → κ) (S : Set α) : Option α → Prop
  | none => S = ∅
  | some a => a ∈ S ∧ ∀ b ∈ S, b ≠ a → s.Past (rank a) (rank b)

theorem Side.not_past_self {x : κ} : ¬ s.Past x x := by
  cases s <;> exact lt_irrefl x

theorem Side.Past.asymm {x y : κ} (past : s.Past x y) : ¬ s.Past y x := by
  intro back
  exact Side.not_past_self (past.trans back)

namespace Closest

theorem unique {r r' : Option α} (first : Closest s rank S r) (second : Closest s rank S r') :
    r = r' := by
  cases r with
  | none =>
    cases r' with
    | none => rfl
    | some b =>
      have empty : S = ∅ := first
      rw [empty] at second
      exact absurd second.1 (Set.notMem_empty b)
  | some a =>
    cases r' with
    | none =>
      have empty : S = ∅ := second
      rw [empty] at first
      exact absurd first.1 (Set.notMem_empty a)
    | some b =>
      by_contra differ
      have apart : b ≠ a := fun same => differ (congrArg some same.symm)
      exact (first.2 b second.1 apart).asymm (second.2 a first.1 apart.symm)

/-- Leaving out elements other than the closest changes nothing. -/
theorem without {r : Option α} (closest : Closest s rank S r) (N : Set α)
    (kept : ∀ a, r = some a → a ∉ N) : Closest s rank (S \ N) r := by
  cases r with
  | none =>
    have empty : S = ∅ := closest
    show S \ N = ∅
    rw [empty, Set.empty_sdiff]
  | some a =>
    constructor
    · exact ⟨closest.1, kept a rfl⟩
    · intro b inside
      exact closest.2 b inside.1

/-- What is closest past the closest element is closest once that is left out. -/
theorem hop {a : α} {r : Option α} (closest : Closest s rank S (some a))
    (further : Closest s rank {b | b ∈ S ∧ s.Past (rank a) (rank b)} r) :
    Closest s rank (S \ {a}) r := by
  have same : S \ {a} = {b | b ∈ S ∧ s.Past (rank a) (rank b)} := by
    ext b
    constructor
    · rintro ⟨inside, differ⟩
      exact ⟨inside, closest.2 b inside differ⟩
    · rintro ⟨inside, past⟩
      refine ⟨inside, ?_⟩
      rintro rfl
      exact Side.not_past_self past
  rw [same]
  exact further

/-- Another ranking under which the elements of the set are in the same order. -/
theorem rerank {κ' : Type*} [Preorder κ'] {rank' : α → κ'} {r : Option α}
    (closest : Closest s rank S r)
    (same : ∀ a ∈ S, ∀ b ∈ S, s.Past (rank a) (rank b) → s.Past (rank' a) (rank' b)) :
    Closest s rank' S r := by
  cases r with
  | none => exact closest
  | some a =>
    obtain ⟨inside, others⟩ := closest
    exact ⟨inside, fun b member differ => same a inside b member (others b member differ)⟩

/-- In a list that is sorted towards the side, the closest element is the first. -/
theorem head {order : List α} (sorted : (order.map rank).Pairwise s.Past) :
    Closest s rank {b | b ∈ order} order.head? := by
  cases order with
  | nil =>
    show {b | b ∈ ([] : List α)} = ∅
    ext b
    simp
  | cons a back =>
    refine ⟨List.mem_cons_self, ?_⟩
    intro b member differ
    rw [List.map_cons, List.pairwise_cons] at sorted
    rcases List.mem_cons.mp member with same | behind
    · exact absurd same differ
    · exact sorted.1 _ (List.mem_map_of_mem behind)

/-- The closest element past an entry of a sorted list is the entry that follows. -/
theorem next {front back : List α} {a : α}
    (sorted : ((front ++ a :: back).map rank).Pairwise s.Past) :
    Closest s rank {b | b ∈ front ++ a :: back ∧ s.Past (rank a) (rank b)} back.head? := by
  rw [List.map_append, List.map_cons, List.pairwise_append, List.pairwise_cons] at sorted
  obtain ⟨_, ⟨behind, tail⟩, inFront⟩ := sorted
  have same : {b | b ∈ front ++ a :: back ∧ s.Past (rank a) (rank b)} = {b | b ∈ back} := by
    ext b
    constructor
    · rintro ⟨member, past⟩
      rcases List.mem_append.mp member with earlier | later
      · exact absurd past (inFront _ (List.mem_map_of_mem earlier) _ List.mem_cons_self).asymm
      · rcases List.mem_cons.mp later with rfl | further
        · exact absurd past Side.not_past_self
        · exact further
    · intro member
      exact ⟨List.mem_append_right _ (List.mem_cons_of_mem _ member),
        behind _ (List.mem_map_of_mem member)⟩
  rw [same]
  exact head tail

end Closest

end Ydb.Lib
