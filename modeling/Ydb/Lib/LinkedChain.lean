import Mathlib.Data.List.Nodup
import Mathlib.Logic.Function.Basic

/-!
# Linked chains

A chain of cells, each with a pointer to the next one. Cells are unlinked and
inserted by a change of one pointer: that of the cell before, or the root.
-/

namespace Ydb.Lib

variable {α : Type*}

/-- The pointers lead from `start` through the cells to `finish`. -/
def Segment (next : α → Option α) : Option α → List α → Option α → Prop
  | start, [], finish => start = finish
  | start, a :: as, finish => start = some a ∧ Segment next (next a) as finish

/-- The pointers lead through the cells to the end. -/
def Chain (next : α → Option α) (root : Option α) (as : List α) : Prop := Segment next root as none

theorem segment_append {next : α → Option α} {start finish : Option α} {as bs : List α} :
    Segment next start (as ++ bs) finish ↔
      ∃ middle, Segment next start as middle ∧ Segment next middle bs finish := by
  induction as generalizing start with
  | nil =>
    constructor
    · intro rest
      exact ⟨start, rfl, rest⟩
    · rintro ⟨_, rfl, rest⟩
      exact rest
  | cons a as ih =>
    constructor
    · rintro ⟨first, rest⟩
      obtain ⟨middle, front, back⟩ := ih.mp rest
      exact ⟨middle, ⟨first, front⟩, back⟩
    · rintro ⟨middle, ⟨first, front⟩, back⟩
      exact ⟨first, ih.mpr ⟨middle, front, back⟩⟩

theorem Segment.congr {next next' : α → Option α} {start finish : Option α} {as : List α}
    (segment : Segment next start as finish) (same : ∀ a ∈ as, next' a = next a) :
    Segment next' start as finish := by
  induction as generalizing start with
  | nil => exact segment
  | cons a as ih =>
    obtain ⟨first, rest⟩ := segment
    refine ⟨first, ?_⟩
    rw [same a List.mem_cons_self]
    exact ih rest fun b member => same b (List.mem_cons_of_mem a member)

theorem Chain.congr {next next' : α → Option α} {root : Option α} {as : List α}
    (chain : Chain next root as) (same : ∀ a ∈ as, next' a = next a) : Chain next' root as :=
  Segment.congr chain same

theorem Chain.root_eq {next : α → Option α} {root : Option α} {as : List α}
    (chain : Chain next root as) : root = as.head? := by
  cases as with
  | nil => exact chain
  | cons a as => exact chain.1

theorem Chain.tail {next : α → Option α} {root : Option α} {a : α} {as : List α}
    (chain : Chain next root (a :: as)) : Chain next (next a) as := chain.2

/-- The pointer to what follows a part of a chain. -/
def follower (next : α → Option α) (root : Option α) (as : List α) : Option α :=
  match as.getLast? with
  | none => root
  | some a => next a

theorem Chain.follower_eq {next : α → Option α} {root : Option α} {as bs : List α}
    (chain : Chain next root (as ++ bs)) : follower next root as = bs.head? := by
  rcases List.eq_nil_or_concat as with rfl | ⟨front, a, rfl⟩
  · exact chain.root_eq
  · rw [List.concat_eq_append, List.append_assoc] at chain
    obtain ⟨_, _, rest⟩ := segment_append.mp chain
    rw [follower, List.concat_eq_append, List.getLast?_append, List.getLast?_singleton]
    exact Chain.root_eq rest.2

section Relink

variable [DecidableEq α]

/-- Make the cell before, or the root, point at `target`. -/
def relinkNext (next : α → Option α) (before : Option α) (target : Option α) : α → Option α :=
  match before with
  | none => next
  | some p => Function.update next p target

/-- The root when the first node is unlinked. -/
def relinkRoot (root : Option α) (before : Option α) (target : Option α) : Option α :=
  match before with
  | none => target
  | some _ => root

/-- A chain can be continued elsewhere after any of its cells. -/
theorem Chain.relink {next : α → Option α} {root target : Option α} {as bs cs : List α}
    (chain : Chain next root (as ++ bs)) (nodup : (as ++ bs).Nodup)
    (rest : Chain next target cs) (apart : ∀ a ∈ as, a ∉ cs) :
    Chain (relinkNext next as.getLast? target) (relinkRoot root as.getLast? target) (as ++ cs) := by
  rcases List.eq_nil_or_concat as with rfl | ⟨front, p, rfl⟩
  · exact rest
  · rw [List.concat_eq_append] at chain nodup apart ⊢
    rw [List.getLast?_append, List.getLast?_singleton]
    show Segment (Function.update next p target) root _ none
    obtain ⟨middle, upTo, _⟩ := segment_append.mp chain
    obtain ⟨last, frontPart, isLast⟩ := segment_append.mp upTo
    obtain ⟨here, _⟩ := isLast
    have frontNodup : (front ++ [p]).Nodup := (List.nodup_append.mp nodup).1
    have notInFront : p ∉ front := by
      intro member
      exact (List.nodup_append.mp frontNodup).2.2 p member p (List.mem_singleton_self p) rfl
    apply segment_append.mpr
    refine ⟨target, segment_append.mpr ⟨some p, ?_, rfl, Function.update_self ..⟩, ?_⟩
    · rw [← here]
      apply frontPart.congr
      intro a member
      apply Function.update_of_ne
      rintro rfl
      exact notInFront member
    · apply Segment.congr rest
      intro c member
      apply Function.update_of_ne
      rintro rfl
      exact apart c (List.mem_append_right _ (List.mem_singleton_self c)) member

/-- Unlink a cell. -/
theorem Chain.unlink {next : α → Option α} {root : Option α} {as bs : List α} {a : α}
    (chain : Chain next root (as ++ a :: bs)) (nodup : (as ++ a :: bs).Nodup) :
    Chain (relinkNext next as.getLast? (next a)) (relinkRoot root as.getLast? (next a))
      (as ++ bs) := by
  obtain ⟨_, _, rest⟩ := segment_append.mp chain
  apply chain.relink nodup rest.2
  intro b member inRest
  exact (List.nodup_append.mp nodup).2.2 b member b (List.mem_cons_of_mem a inRest) rfl

/-- Insert a cell that points at what follows. -/
theorem Chain.insert {next : α → Option α} {root : Option α} {as bs : List α} {a : α}
    (chain : Chain next root (as ++ bs)) (nodup : (as ++ bs).Nodup) (new : a ∉ as ++ bs)
    (linked : next a = bs.head?) :
    Chain (relinkNext next as.getLast? (some a)) (relinkRoot root as.getLast? (some a))
      (as ++ a :: bs) := by
  obtain ⟨middle, _, rest⟩ := segment_append.mp chain
  have there : middle = bs.head? := Chain.root_eq rest
  apply chain.relink nodup
  · refine ⟨rfl, ?_⟩
    rw [linked, ← there]
    exact rest
  · intro b member inRest
    rcases List.mem_cons.mp inRest with rfl | inBack
    · exact new (List.mem_append_left _ member)
    · exact (List.nodup_append.mp nodup).2.2 b member b inBack rfl

end Relink

end Ydb.Lib
