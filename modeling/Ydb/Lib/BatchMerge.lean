import Mathlib.Data.List.Basic
import Mathlib.Logic.Function.Basic

/-!
# Merging sorted runs by batches

A merge takes a batch of elements from the front of one queue at a time, none of them above
any element of another queue. What it puts out is sorted, holds the same elements, and keeps
the order of each run.
-/

namespace Ydb.Lib

variable {α : Type} (key : α → Nat)

/-- The elements of so many queues. -/
def allOf (n : Nat) (queues : Nat → List α) : List α := (List.range n).flatMap queues

theorem allOf_succ (n : Nat) (queues : Nat → List α) : allOf (n + 1) queues = allOf n queues ++ queues n := by
  simp [allOf, List.range_succ]

theorem mem_allOf {n : Nat} {queues : Nat → List α} {x : α} : x ∈ allOf n queues ↔ ∃ i < n, x ∈ queues i := by
  simp [allOf]

theorem allOf_congr {n : Nat} {queues queues' : Nat → List α} (same : ∀ i < n, queues i = queues' i) :
    allOf n queues = allOf n queues' := by
  induction n with
  | zero => rfl
  | succ n ih =>
    rw [allOf_succ, allOf_succ, ih fun i less => same i (by omega), same n (by omega)]

/-- Taking a batch from the front of a queue. -/
theorem allOf_take {n i : Nat} (inside : i < n) {queues : Nat → List α} {taken rest : List α}
    (parts : queues i = taken ++ rest) :
    (allOf n queues).Perm (taken ++ allOf n (Function.update queues i rest)) := by
  induction n with
  | zero => omega
  | succ n ih =>
    rw [allOf_succ, allOf_succ]
    by_cases last : i = n
    · subst last
      have others : allOf i (Function.update queues i rest) = allOf i queues :=
        allOf_congr fun k less => Function.update_of_ne (by omega) _ _
      rw [Function.update_self, parts, others]
      exact List.perm_append_comm_assoc _ _ _
    · rw [Function.update_of_ne (fun same => last same.symm), ← List.append_assoc]
      exact (ih (by omega)).append_right _

/-- Whether an element has the key of one of a run. -/
def belongs (run : List α) (x : α) : Bool := key x ∈ run.map key

theorem belongs_of_mem {run : List α} {x : α} (there : x ∈ run) : belongs key run x = true :=
  decide_eq_true (List.mem_map_of_mem there)

/-- Runs are sorted, and no two of them have a key in common. -/
structure SortedRuns (n : Nat) (runs : Nat → List α) : Prop where
  sorted : ∀ i < n, (runs i).Pairwise fun x y => key x ≤ key y
  apart : ∀ i < n, ∀ j < n, i ≠ j → ∀ x ∈ runs i, ∀ y ∈ runs j, key x ≠ key y

/-- A run is what has its keys among all elements. -/
theorem SortedRuns.filter_allOf {key : α → Nat} {n : Nat} {runs : Nat → List α} (sortedRuns : SortedRuns key n runs)
    {i m : Nat} (inside : i < n) (upto : m ≤ n) :
    (allOf m runs).filter (belongs key (runs i)) = if i < m then runs i else [] := by
  induction m with
  | zero => rfl
  | succ m ih =>
    rw [allOf_succ, List.filter_append, ih (by omega)]
    by_cases here : i = m
    · subst here
      have all : (runs i).filter (belongs key (runs i)) = runs i :=
        List.filter_eq_self.mpr fun x there => belongs_of_mem key there
      rw [if_neg (by omega), if_pos (by omega), all, List.nil_append]
    · have none : (runs m).filter (belongs key (runs i)) = [] := by
        apply List.filter_eq_nil_iff.mpr
        intro x there belonging
        obtain ⟨y, member, sameKey⟩ := List.mem_map.mp (of_decide_eq_true belonging)
        exact sortedRuns.apart i inside m (by omega) here y member x there sameKey
      rw [none, List.append_nil]
      by_cases earlier : i < m
      · rw [if_pos earlier, if_pos (by omega)]
      · rw [if_neg earlier, if_neg (by omega)]

/-- What a merge has put out, and what is left in its queues. -/
structure Merging (n : Nat) (runs queues : Nat → List α) (out : List α) : Prop where
  sorted : out.Pairwise fun x y => key x ≤ key y
  before : ∀ x ∈ out, ∀ i < n, ∀ y ∈ queues i, key x ≤ key y
  kept : ∀ i < n, out.filter (belongs key (runs i)) ++ queues i = runs i
  perm : (allOf n runs).Perm (out ++ allOf n queues)

theorem Merging.start (n : Nat) (runs : Nat → List α) : Merging key n runs runs [] :=
  ⟨.nil, fun _ there => absurd there List.not_mem_nil, fun _ _ => rfl, .refl _⟩

variable {key} {n : Nat} {runs queues : Nat → List α} {out : List α}

theorem Merging.mem_run (merging : Merging key n runs queues out) {i : Nat} (inside : i < n) {x : α}
    (there : x ∈ queues i) : x ∈ runs i := by
  rw [← merging.kept i inside]
  exact List.mem_append_right _ there

/-- A batch is taken. -/
theorem Merging.take (merging : Merging key n runs queues out) (sortedRuns : SortedRuns key n runs) {i : Nat}
    (inside : i < n) {taken rest : List α} (parts : queues i = taken ++ rest)
    (least : ∀ x ∈ taken, ∀ j < n, j ≠ i → ∀ y ∈ queues j, key x ≤ key y) :
    Merging key n runs (Function.update queues i rest) (out ++ taken) := by
  have fromRun : ∀ x ∈ taken, x ∈ runs i := fun x there =>
    merging.mem_run inside (by rw [parts]; exact List.mem_append_left _ there)
  have sortedQueue : (taken ++ rest).Pairwise fun x y => key x ≤ key y := by
    have sorted := sortedRuns.sorted i inside
    rw [← merging.kept i inside, parts] at sorted
    exact (List.pairwise_append.mp sorted).2.1
  obtain ⟨sortedTaken, -, cross⟩ := List.pairwise_append.mp sortedQueue
  constructor
  · refine List.pairwise_append.mpr ⟨merging.sorted, sortedTaken, fun x there y here => ?_⟩
    exact merging.before x there i inside y (by rw [parts]; exact List.mem_append_left _ here)
  · intro x there j within y here
    by_cases same : j = i
    · subst same
      rw [Function.update_self] at here
      rcases List.mem_append.mp there with old | new
      · exact merging.before x old j within y (by rw [parts]; exact List.mem_append_right _ here)
      · exact cross x new y here
    · rw [Function.update_of_ne same] at here
      rcases List.mem_append.mp there with old | new
      · exact merging.before x old j within y here
      · exact least x new j within same y here
  · intro j within
    by_cases same : j = i
    · subst same
      have all : taken.filter (belongs key (runs j)) = taken :=
        List.filter_eq_self.mpr fun x there => belongs_of_mem key (fromRun x there)
      rw [Function.update_self, List.filter_append, all, List.append_assoc, ← parts]
      exact merging.kept j within
    · have none : taken.filter (belongs key (runs j)) = [] := by
        apply List.filter_eq_nil_iff.mpr
        intro x there belonging
        obtain ⟨y, here, sameKey⟩ := List.mem_map.mp (of_decide_eq_true belonging)
        exact sortedRuns.apart j within i inside same y here x (fromRun x there) sameKey
      rw [Function.update_of_ne same, List.filter_append, none, List.append_nil]
      exact merging.kept j within
  · rw [List.append_assoc]
    exact merging.perm.trans ((allOf_take inside parts).append_left out)

/-- When the queues are empty, the merge is complete. -/
theorem Merging.complete (merging : Merging key n runs queues out) (empty : ∀ i < n, queues i = []) :
    (allOf n runs).Perm out ∧ ∀ i < n, out.filter (belongs key (runs i)) = runs i := by
  have rest : allOf n queues = [] := by
    apply List.eq_nil_iff_forall_not_mem.mpr
    intro x there
    obtain ⟨i, inside, here⟩ := mem_allOf.mp there
    rw [empty i inside] at here
    exact List.not_mem_nil here
  constructor
  · have perm := merging.perm
    rwa [rest, List.append_nil] at perm
  · intro i inside
    have kept := merging.kept i inside
    rwa [empty i inside, List.append_nil] at kept

end Ydb.Lib
