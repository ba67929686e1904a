import Mathlib.Data.List.TakeWhile
import Ydb.TransactionSortScan

/-!
# Merging the update records of a transaction

In each turn of the merge the records of one region up to the next least number of the
others are copied. The buffer then holds the merged records before the commit records.
-/

namespace Ydb.TransactionSort

open Lib

abbrev Record := List UInt8

variable {priv : ByteMemory} {n : Nat} {info : Nat → reg_jrec_info_t} {queues : Nat → List Record}

/-! ## The queues of the regions -/

/-- The private buffer holds what is left of each region. -/
structure Positioned (priv : ByteMemory) (n : Nat) (info : Nat → reg_jrec_info_t) (queues : Nat → List Record) :
    Prop where
  ends : ∀ i < n, (info i).end_offset = (info i).working_offset + (queues i).flatten.length
  holds : ∀ i < n, priv.read (info i).working_offset (queues i).flatten.length = (queues i).flatten
  updates : ∀ i < n, ∀ x ∈ queues i, IsUpdate x

/-- The first record of a queue where it stands. -/
theorem Positioned.head (positioned : Positioned priv n info queues) {i : Nat} (inside : i < n) {x : Record}
    {rest : List Record} (parts : queues i = x :: rest) :
    priv.read (info i).working_offset x.length = x ∧
      priv.read ((info i).working_offset + x.length) rest.flatten.length = rest.flatten := by
  have holds := positioned.holds i inside
  rw [parts, List.flatten_cons] at holds
  exact read_append.mp holds

/-- A queue is empty when its region is done. -/
theorem Positioned.empty_iff (positioned : Positioned priv n info queues) {i : Nat} (inside : i < n) :
    (info i).working_offset ≥ (info i).end_offset ↔ queues i = [] := by
  have ends := positioned.ends i inside
  cases parts : queues i with
  | nil =>
    rw [parts, List.flatten_nil, List.length_nil] at ends
    refine iff_of_true (by omega) rfl
  | cons x rest =>
    have long := (positioned.updates i inside x (by rw [parts]; exact List.mem_cons_self)).long
    rw [parts, List.flatten_cons, List.length_append] at ends
    refine iff_of_false (by omega) (by simp)

/-! ## The least and the next number -/

/-- What the scan for the least number has found among the first regions. -/
structure MinFound (queues : Nat → List Record) (top k : Nat) (m : MinScan) : Prop where
  next : m.min_val ≤ m.next_min_val ∧ m.next_min_val ≤ top
  none : m.sorting_needed = false → ∀ j < k, queues j = []
  least : m.sorting_needed = true → m.min_updnum_reg < k ∧
    ∃ x rest, queues m.min_updnum_reg = x :: rest ∧ updnum x = m.min_val
  others : ∀ j < k, (m.sorting_needed = true → j ≠ m.min_updnum_reg) →
    ∀ x rest, queues j = x :: rest → m.next_min_val ≤ updnum x
  start : m.sorting_needed = false → m.min_val = top

/-- A turn keeps the least update number found. -/
theorem minTurn_found (positioned : Positioned priv n info queues) {top k : Nat} (inside : k < n)
    (below : ∀ i < n, ∀ x ∈ queues i, updnum x < top) {m : MinScan} (found : MinFound queues top k m) :
    MinFound queues top (k + 1) (minTurn priv info k m) := by
  rw [minTurn]
  by_cases done : (info k).working_offset ≥ (info k).end_offset
  · -- the region is done
    have empty := (positioned.empty_iff inside).mp done
    rw [if_pos done]
    constructor
    · exact found.next
    · intro unneeded j less
      by_cases here : j = k
      · rw [here, empty]
      · exact found.none unneeded j (by omega)
    · intro needed
      obtain ⟨before, first⟩ := found.least needed
      exact ⟨by omega, first⟩
    · intro j less other x rest parts
      by_cases here : j = k
      · rw [here, empty] at parts
        contradiction
      · exact found.others j (by omega) other x rest parts
    · exact found.start
  · rw [if_neg done]
    obtain ⟨y, rest, parts⟩ := List.exists_cons_of_ne_nil
      fun empty => done ((positioned.empty_iff inside).mpr empty)
    have member : y ∈ queues k := by rw [parts]; exact List.mem_cons_self
    have update := positioned.updates k inside y member
    have number : update_num priv (info k).working_offset = updnum y :=
      update_num_of_read (positioned.head inside parts).1 update.long
    have small := below k inside y member
    obtain ⟨ordered, bounded⟩ := found.next
    simp only [number]
    by_cases less : updnum y < m.min_val
    · -- it is the least so far, and the least before is the next
      rw [if_pos less]
      refine ⟨⟨Nat.le_of_lt less, Nat.le_trans ordered bounded⟩, fun no => absurd no (by simp), fun _ =>
        ⟨Nat.lt_succ_self k, y, rest, parts, rfl⟩, ?_, fun no => absurd no (by simp)⟩
      intro j before other x rest' parts'
      have apart : j ≠ k := other rfl
      cases needed : m.sorting_needed with
      | false =>
        have empty := found.none needed j (by omega)
        rw [empty] at parts'
        contradiction
      | true =>
        obtain ⟨-, least, restLeast, partsLeast, value⟩ := found.least needed
        by_cases same : j = m.min_updnum_reg
        · rw [same, partsLeast] at parts'
          cases parts'
          exact Nat.le_of_eq value.symm
        · exact Nat.le_trans ordered (found.others j (by omega) (fun _ => same) x rest' parts')
    · rw [if_neg less]
      cases needed : m.sorting_needed with
      | false =>
        -- the first region that is not done is less than the top
        have start := found.start needed
        omega
      | true =>
        obtain ⟨before, first⟩ := found.least needed
        by_cases next : updnum y < m.next_min_val
        · rw [if_pos next]
          refine ⟨⟨by change m.min_val ≤ updnum y; omega, Nat.le_of_lt small⟩, fun no => absurd no (by simp),
            fun _ => ⟨Nat.lt_succ_of_lt before, first⟩, ?_, fun no => absurd no (by simp)⟩
          intro j within other x rest' parts'
          have apart : j ≠ m.min_updnum_reg := other rfl
          by_cases here : j = k
          · rw [here, parts] at parts'
            cases parts'
            exact Nat.le_refl (updnum y)
          · exact Nat.le_trans (Nat.le_of_lt next)
              (found.others j (by omega) (fun _ => apart) x rest' parts')
        · rw [if_neg next]
          refine ⟨⟨ordered, bounded⟩, fun no => absurd no (by simp), fun _ => ⟨Nat.lt_succ_of_lt before, first⟩, ?_,
            fun no => absurd no (by simp)⟩
          intro j within other x rest' parts'
          have apart : j ≠ m.min_updnum_reg := other rfl
          by_cases here : j = k
          · rw [here, parts] at parts'
            cases parts'
            exact Nat.not_lt.mp next
          · exact found.others j (by omega) (fun _ => apart) x rest' parts'

theorem minScan_found (positioned : Positioned priv n info queues) {top : Nat}
    (below : ∀ i < n, ∀ x ∈ queues i, updnum x < top) {k : Nat} (inside : k ≤ n) :
    MinFound queues top k (minScan priv info top k) := by
  induction k with
  | zero =>
    refine ⟨⟨Nat.le_refl _, Nat.le_refl _⟩, fun _ j less => ?_, fun no => absurd no Bool.false_ne_true,
      fun j less => ?_, fun _ => rfl⟩
    · omega
    · omega
  | succ k ih => exact minTurn_found positioned (by omega) below (ih (by omega))

/-! ## A batch -/

/-- A batch ends at the first record that is not less than the next least. -/
theorem batchEnd_eq (next : Nat) {a : Nat} (rest : List Record) (turns : Nat)
    (holds : priv.read a rest.flatten.length = rest.flatten) (updates : ∀ x ∈ rest, IsUpdate x)
    (enough : rest.flatten.length ≤ turns) :
    batchEnd priv next (a + rest.flatten.length) a turns =
      a + (rest.takeWhile fun x => decide (updnum x < next)).flatten.length := by
  induction rest generalizing a turns with
  | nil =>
    cases turns with
    | zero => rfl
    | succ turns =>
      rw [batchEnd, if_neg (by simp)]
      rfl
  | cons x rest ih =>
    have update := updates x List.mem_cons_self
    have long := update.long
    rw [List.flatten_cons] at holds enough ⊢
    obtain ⟨here, behind⟩ := read_append.mp holds
    have number := update_num_of_read here long
    have length : forwptr priv a = x.length := by rw [forwptr_of_read here (by omega), update.length]
    rw [List.length_append] at enough ⊢
    cases turns with
    | zero => omega
    | succ turns =>
      rw [batchEnd, number, length, List.takeWhile_cons]
      by_cases less : updnum x < next
      · have rest' := ih turns behind (fun y there => updates y (List.mem_cons_of_mem _ there))
          (by omega)
        rw [Nat.add_assoc] at rest'
        rw [if_pos ⟨by omega, less⟩, rest', decide_eq_true less, if_pos rfl, List.flatten_cons,
          List.length_append, Nat.add_assoc]
      · rw [if_neg (fun both => less both.2), decide_eq_false less, if_neg Bool.false_ne_true]
        rfl

/-- What is left of the regions after a batch. -/
theorem Positioned.take (positioned : Positioned priv n info queues) {i : Nat} (inside : i < n)
    {batch rest : List Record} (parts : queues i = batch ++ rest) :
    priv.read (info i).working_offset batch.flatten.length = batch.flatten ∧
      Positioned priv n
        (Function.update info i { info i with working_offset := (info i).working_offset + batch.flatten.length })
        (Function.update queues i rest) := by
  have ends := positioned.ends i inside
  have holds := positioned.holds i inside
  rw [parts, List.flatten_append, List.length_append] at ends
  rw [parts, List.flatten_append] at holds
  obtain ⟨front, back⟩ := read_append.mp holds
  refine ⟨front, ?_, ?_, ?_⟩
  · intro j within
    by_cases here : j = i
    · subst here
      rw [Function.update_self, Function.update_self]
      change (info j).end_offset = (info j).working_offset + batch.flatten.length + rest.flatten.length
      omega
    · rw [Function.update_of_ne here, Function.update_of_ne here]
      exact positioned.ends j within
  · intro j within
    by_cases here : j = i
    · subst here
      rw [Function.update_self, Function.update_self]
      exact back
    · rw [Function.update_of_ne here, Function.update_of_ne here]
      exact positioned.holds j within
  · intro j within x there
    by_cases here : j = i
    · subst here
      rw [Function.update_self] at there
      exact positioned.updates j within x (by rw [parts]; exact List.mem_append_right _ there)
    · rw [Function.update_of_ne here] at there
      exact positioned.updates j within x there

/-! ## The merge -/

variable {runs : Nat → List Record} {out : List Record} {top base : Nat} {mem : ByteMemory}

/-- The records of a batch are not above those of the other regions. -/
theorem batch_least {m : MinScan} (merging : Merging updnum n runs queues out) (sortedRuns : SortedRuns updnum n runs)
    (found : MinFound queues top n m) (needed : m.sorting_needed = true) {first : Record} {rest : List Record}
    (parts : queues m.min_updnum_reg = first :: rest) :
    ∀ x ∈ first :: rest.takeWhile (fun x => decide (updnum x < m.next_min_val)),
      ∀ j < n, j ≠ m.min_updnum_reg → ∀ y ∈ queues j, updnum x ≤ updnum y := by
  obtain ⟨before, least, restLeast, partsLeast, value⟩ := found.least needed
  rw [partsLeast] at parts
  cases parts
  intro x there j within other y here
  -- the number is at most the next least, and that at most the first of the other region
  have upper : updnum x ≤ m.next_min_val := by
    rcases List.mem_cons.mp there with isFirst | later
    · rw [isFirst, value]
      exact found.next.1
    · have less := List.mem_takeWhile_imp later
      exact Nat.le_of_lt (of_decide_eq_true less)
  obtain ⟨z, tail, queue⟩ := List.exists_cons_of_ne_nil (List.ne_nil_of_mem here)
  have sorted := sortedRuns.sorted j within
  rw [← merging.kept j within, queue] at sorted
  have ordered := (List.pairwise_append.mp sorted).2.1
  have lower : updnum z ≤ updnum y := by
    rw [queue] at here
    rcases List.mem_cons.mp here with same | later
    · rw [same]
    · exact List.rel_of_pairwise_cons ordered later
  exact Nat.le_trans upper (Nat.le_trans (found.others j within (fun _ => other) z tail queue) lower)

/-- What is put out and what is left take up the same room as the runs. -/
theorem merging_room (merging : Merging updnum n runs queues out) :
    (allOf n runs).flatten.length = out.flatten.length + (allOf n queues).flatten.length := by
  rw [merging.perm.flatten.length_eq, List.flatten_append, List.length_append]

/-- The loop merges what is left, and changes nothing but the room of the update records. -/
theorem mergeLoop_merges (mem : ByteMemory) (base : Nat) (sortedRuns : SortedRuns updnum n runs) (merging : Merging updnum n runs queues out)
    (positioned : Positioned priv n info queues) (below : ∀ i < n, ∀ x ∈ runs i, updnum x < top)
    (written : mem.read base out.flatten.length = out.flatten) (turns : Nat)
    (enough : (allOf n queues).length < turns) :
    ∃ mem' merged, mergeLoop priv n top mem info (base + out.flatten.length) turns = some mem' ∧
      Merging updnum n runs (fun _ => []) merged ∧ mem'.read base merged.flatten.length = merged.flatten ∧
      ∀ a, a < base ∨ base + (allOf n runs).flatten.length ≤ a → mem' a = mem a := by
  induction turns generalizing queues info out mem with
  | zero => omega
  | succ turns ih =>
    have found := minScan_found positioned
      (fun i inside x there => below i inside x (merging.mem_run inside there)) (Nat.le_refl n)
    rw [mergeLoop]
    generalize minScan priv info top n = m at found ⊢
    cases needed : m.sorting_needed with
    | false =>
      have empty : ∀ i < n, queues i = [] := fun i inside => found.none needed i inside
      refine ⟨mem, out, by simp, ?_, written, fun _ _ => rfl⟩
      refine ⟨merging.sorted, ?_, ?_, ?_⟩
      · intro x _ i _ y there
        exact absurd there List.not_mem_nil
      · intro i inside
        have kept := merging.kept i inside
        rwa [empty i inside] at kept
      · have perm := merging.perm
        rwa [allOf_congr empty] at perm
    | true =>
      obtain ⟨inside, first, rest, parts, value⟩ := found.least needed
      have least := batch_least merging sortedRuns found needed parts
      obtain ⟨here, behind⟩ := positioned.head inside parts
      have updates := positioned.updates m.min_updnum_reg inside
      rw [parts] at updates
      have update := updates first List.mem_cons_self
      have long := update.long
      have length : forwptr priv (info m.min_updnum_reg).working_offset = first.length := by
        rw [forwptr_of_read here (by omega), update.length]
      have ends := positioned.ends _ inside
      rw [parts, List.flatten_cons, List.length_append, ← Nat.add_assoc] at ends
      let batch := first :: rest.takeWhile fun x => decide (updnum x < m.next_min_val)
      have split : queues m.min_updnum_reg =
          batch ++ rest.dropWhile (fun x => decide (updnum x < m.next_min_val)) := by
        rw [parts, List.cons_append, List.takeWhile_append_dropWhile]
      have batchLength : batch.flatten.length = first.length +
          (rest.takeWhile fun x => decide (updnum x < m.next_min_val)).flatten.length := by
        rw [List.flatten_cons, List.length_append]
      have reached := batchEnd_eq m.next_min_val rest (info m.min_updnum_reg).end_offset behind
        (fun y there => updates y (List.mem_cons_of_mem _ there)) (by omega)
      rw [← ends, Nat.add_assoc, ← batchLength] at reached
      obtain ⟨copied, positioned'⟩ := positioned.take inside split
      have merging' := merging.take sortedRuns inside split least
      have fits := merging_room merging
      have fits' := merging_room merging'
      have size : (out ++ batch).flatten.length = out.flatten.length + batch.flatten.length := by
        rw [List.flatten_append, List.length_append]
      have written' : (mem.store (base + out.flatten.length) batch.flatten).read base
          (out ++ batch).flatten.length = (out ++ batch).flatten := by
        rw [List.flatten_append]
        refine read_append.mpr ⟨?_, ByteMemory.read_store _ _ _⟩
        rw [ByteMemory.read_store_before (Nat.le_refl _)]
        exact written
      have fewer : (allOf n (Function.update queues m.min_updnum_reg
          (rest.dropWhile fun x => decide (updnum x < m.next_min_val)))).length < turns := by
        have taken := (allOf_take inside split).length_eq
        have some : 0 < batch.length := Nat.succ_pos _
        rw [List.length_append] at taken
        rw [taken] at enough
        exact Nat.lt_of_lt_of_le (Nat.lt_add_of_pos_left some) (Nat.le_of_lt_succ enough)
      obtain ⟨mem', merged, run, complete, content, frame⟩ :=
        ih _ merging' positioned' written' fewer
      refine ⟨mem', merged, ?_, complete, content, fun a outside => ?_⟩
      · simp only [Bool.not_true, Bool.false_eq_true, if_false]
        rw [length, reached, Nat.add_sub_cancel_left, copied, Nat.add_assoc, ← size]
        exact run
      · rw [frame a outside]
        apply ByteMemory.store_of_outside
        omega

end Ydb.TransactionSort
