import Ydb.TransactionSortMerge

/-!
# A well-formed buffer of a transaction is sorted

A malformed one is left alone, unless more regions begin in it than the array of regions has
entries for. The result holds the same records: the update records by their numbers, those of a region in
their order, then the commit records.
-/

namespace Ydb.TransactionSort

open Lib

/-! ## Buffers -/

/-- The buffer of a transaction: the update records of each region, the first of them marked, sorted by
numbers that no two regions share, and a commit record of each region. -/
structure TrBuffer where
  participants : Nat
  runs : Nat → List Record
  tcoms : List Record
  positive : 1 ≤ participants
  regular : ∀ i < participants, IsRegion (runs i)
  sortedRuns : SortedRuns updnum participants runs
  commits : ∀ x ∈ tcoms, IsTcom x
  count : tcoms.length = participants
  agree : ∀ x ∈ tcoms, num_participants (ofBytes x) 0 = participants
  short : ((allOf participants runs).flatten ++ tcoms.flatten).length < 2 ^ 31

/-- The bytes of a buffer. -/
def TrBuffer.bytes (b : TrBuffer) : List UInt8 := (allOf b.participants b.runs).flatten ++ b.tcoms.flatten

/-- Records merged: in the order of their numbers, the same records, and those of each region in their order. -/
structure TrBuffer.Sorts (b : TrBuffer) (merged : List Record) : Prop where
  sorted : merged.Pairwise fun x y => updnum x ≤ updnum y
  perm : (allOf b.participants b.runs).Perm merged
  kept : ∀ i < b.participants, merged.filter (belongs updnum (b.runs i)) = b.runs i

variable (b : TrBuffer)

/-- Records that are in order are sorted where they are. -/
theorem TrBuffer.sorts_self (sorted : (allOf b.participants b.runs).Pairwise fun x y => updnum x ≤ updnum y) :
    b.Sorts (allOf b.participants b.runs) := by
  refine ⟨sorted, .refl _, fun i inside => ?_⟩
  rw [b.sortedRuns.filter_allOf inside (Nat.le_refl _), if_pos inside]

theorem TrBuffer.updates {x : Record} (there : x ∈ allOf b.participants b.runs) : IsUpdate x := by
  obtain ⟨i, inside, here⟩ := mem_allOf.mp there
  exact (b.regular i inside).updates x here

/-! ## Parts of the buffer -/

variable {mem : ByteMemory} {n : Nat} {runs : Nat → List Record}

theorem read_ofBytes (r : List UInt8) : (ofBytes r).read 0 r.length = r := by
  apply List.ext_getElem ByteMemory.length_read
  intro i _ inside
  simp [ByteMemory.read, ofBytes, inside]

theorem read_shift (mem : ByteMemory) (base a len : Nat) :
    ByteMemory.read (fun k => mem (base + k)) a len = mem.read (base + a) len := by
  apply List.map_congr_left
  intro i _
  rw [Nat.add_assoc]

/-- The records of one region in the buffer. -/
theorem read_run (there : mem.read 0 (allOf n runs).flatten.length = (allOf n runs).flatten) {j : Nat}
    (inside : j < n) :
    mem.read (allOf j runs).flatten.length (runs j).flatten.length = (runs j).flatten := by
  induction n with
  | zero => omega
  | succ n ih =>
    rw [allOf_succ, List.flatten_append] at there
    obtain ⟨front, back⟩ := read_append.mp there
    by_cases last : j = n
    · rw [last]
      rw [Nat.zero_add] at back
      exact back
    · exact ih front (by omega)

theorem length_le_flatten {records : List Record} (some : ∀ x ∈ records, 1 ≤ x.length) :
    records.length ≤ records.flatten.length := by
  induction records with
  | nil => exact Nat.le_refl 0
  | cons x records ih =>
    have here := some x List.mem_cons_self
    have rest := ih fun y there => some y (List.mem_cons_of_mem _ there)
    rw [List.flatten_cons, List.length_append, List.length_cons]
    omega

/-- The first record begins a region and is not the whole buffer; the last one is a commit record. -/
theorem TrBuffer.ends_read {tr_buff : Nat} (holds : mem.read tr_buff b.bytes.length = b.bytes) :
    forwptr (fun a => mem (tr_buff + a)) 0 ≠ b.bytes.length ∧
      IS_TUPD (jrec_type (fun a => mem (tr_buff + a)) 0) = true ∧
      jrec_type mem (tr_buff + b.bytes.length - TCOM_SIZE) = JRT_TCOM ∧
      num_participants mem (tr_buff + b.bytes.length - TCOM_SIZE) = b.participants := by
  have positive := b.positive
  obtain ⟨first, rest, parts, isFirst, -⟩ := (b.regular 0 (by omega)).begins
  have update := (b.regular 0 (by omega)).updates first (by rw [parts]; exact List.mem_cons_self)
  have long := update.long
  have size : TCOM_SIZE = 56 := rfl
  have nonempty : b.tcoms ≠ [] := by
    intro none
    have count := b.count
    rw [none, List.length_nil] at count
    omega
  obtain ⟨init, last, tcoms⟩ : ∃ init last, b.tcoms = init ++ [last] :=
    ⟨_, _, (List.dropLast_concat_getLast nonempty).symm⟩
  have member : last ∈ b.tcoms := by rw [tcoms]; simp
  have tcom := b.commits last member
  have lastSize := tcom.size
  -- the buffer as what is before the last record, and the last record
  have back : b.bytes = ((allOf b.participants b.runs).flatten ++ init.flatten) ++ last := by
    rw [TrBuffer.bytes, tcoms, List.flatten_append, List.flatten_singleton, List.append_assoc]
  have atEnd := holds
  rw [back] at atEnd
  obtain ⟨-, lastRead⟩ := read_append.mp atEnd
  have place : tr_buff + b.bytes.length - TCOM_SIZE =
      tr_buff + ((allOf b.participants b.runs).flatten ++ init.flatten).length := by
    rw [back, List.length_append, lastSize]
    omega
  -- and as the first record, and what is behind it
  obtain ⟨behind, front⟩ : ∃ behind, b.bytes = first ++ behind := by
    have one : allOf b.participants b.runs = b.runs 0 ++
        (List.range' 1 (b.participants - 1)).flatMap b.runs := by
      obtain ⟨more, count⟩ := Nat.exists_eq_add_of_le positive
      rw [allOf, count, List.range_eq_range', Nat.add_comm 1 more, List.range'_succ, List.flatMap_cons]
      rfl
    rw [TrBuffer.bytes, one, parts]
    exact ⟨_, by rw [List.flatten_append, List.flatten_cons, List.append_assoc, List.append_assoc]⟩
  have atStart := holds
  rw [front] at atStart
  obtain ⟨firstRead, -⟩ := read_append.mp atStart
  have firstThere : ByteMemory.read (fun a => mem (tr_buff + a)) 0 first.length = first := by
    rw [read_shift]
    exact firstRead
  have total : first.length + 56 ≤ b.bytes.length := by
    have inRuns : first ∈ allOf b.participants b.runs :=
      mem_allOf.mpr ⟨0, by omega, by rw [parts]; exact List.mem_cons_self⟩
    have within := (List.sublist_flatten_of_mem inRuns).length_le
    rw [back, List.length_append, List.length_append, lastSize]
    omega
  refine ⟨?_, ?_, ?_, ?_⟩
  · rw [forwptr_of_read firstThere (by omega), update.length]
    omega
  · rw [jrec_type_of_read firstThere (by omega)]
    exact isFirst
  · rw [place, jrec_type_of_read lastRead (by omega), tcom.commits]
  · rw [place, num_participants_of_read lastRead (by omega), b.agree last member]

/-! ## The scan of the whole buffer -/

/-- What the scan leaves when it has passed the commit records. -/
structure TrBuffer.Complete (b : TrBuffer) (s : Scan) : Prop where
  done : s.tlen = 0
  balanced : s.balanced = 0
  reg_idx : s.reg_idx = b.participants
  greatest : ∀ x ∈ allOf b.participants b.runs, updnum x ≤ s.max_updnum
  small : s.max_updnum < 2 ^ 32 - 1
  sorted : s.already_sorted = true → b.Sorts (allOf b.participants b.runs)
  first : s.first_tcom_offset = (allOf b.participants b.runs).flatten.length
  starts : ∀ j < b.participants, (s.reg_jrec_info_array j).working_offset = (allOf j b.runs).flatten.length
  ends : ∀ j, j + 1 < b.participants →
    (s.reg_jrec_info_array j).end_offset = (allOf (j + 1) b.runs).flatten.length

/-- The scan of a well-formed buffer. -/
theorem TrBuffer.scan {buff : ByteMemory} (holds : buff.read 0 b.bytes.length = b.bytes)
    (info : Nat → reg_jrec_info_t) {entries : Nat} (array : b.participants ≤ entries) :
    ∃ s, scanLoop buff entries (.start info b.bytes.length) b.bytes.length = .done s ∧
      b.Complete s := by
  obtain ⟨front, back⟩ := read_append.mp holds
  have total : b.bytes.length = (allOf b.participants b.runs).flatten.length + b.tcoms.flatten.length := by
    rw [TrBuffer.bytes, List.length_append]
  have positive := b.positive
  obtain ⟨first, rest, parts, -, -⟩ := (b.regular 0 (by omega)).begins
  have inRuns : first ∈ allOf b.participants b.runs :=
    mem_allOf.mpr ⟨0, by omega, by rw [parts]; exact List.mem_cons_self⟩
  have long := (b.updates inRuns).long
  have within := (List.sublist_flatten_of_mem inRuns).length_le
  obtain ⟨s₁, reaches₁, scanned, noted⟩ :=
    scan_regions b.bytes.length info b.regular front (by omega) array
  rw [Nat.zero_add, ← scanned.tb] at back
  have tlen := scanned.tlen
  obtain ⟨s₂, reaches₂, done, balanced, tcom, sameInfo, sameIndex, sameMax, sameSorted⟩ :=
    scan_tcoms b.tcoms b.commits back (by omega) (by rw [noted.balanced, b.count])
      (by rw [scanned.tb]; omega)
  have nonempty : b.tcoms ≠ [] := by
    intro none
    have count := b.count
    rw [none, List.length_nil] at count
    omega
  obtain ⟨turns, -, run⟩ := (reaches₁.trans reaches₂) b.bytes.length (Nat.le_refl _)
  have stops : scanLoop buff entries s₂ turns = .done s₂ := by
    cases turns with
    | zero => rfl
    | succ turns =>
      have prefixSize : JREC_PREFIX_SIZE = 24 := rfl
      rw [scanLoop, if_neg (by omega)]
  refine ⟨s₂, run.trans stops, done, balanced, by rw [sameIndex, noted.reg_idx], ?_, ?_, ?_, ?_, ?_, ?_⟩
  · rw [sameMax]
    exact scanned.greatest
  · rw [sameMax]
    exact scanned.small
  · intro inOrder
    rw [sameSorted] at inOrder
    exact b.sorts_self (scanned.sorted inOrder).1
  · rw [tcom, if_pos ⟨noted.uncommitted, nonempty⟩, scanned.tb]
  · rw [sameInfo]
    exact noted.starts
  · rw [sameInfo]
    exact noted.ends

/-! ## The result -/

/-- There is an entry for each participant. -/
theorem le_growArray (statics : Statics) (participants : Nat) :
    participants ≤ (growArray statics participants).max_participants := by
  unfold growArray
  split
  · exact Nat.le_refl participants
  · omega

/-- The regions at the beginning of the merge. -/
theorem TrBuffer.positioned {priv : ByteMemory} (holds : priv.read 0 b.bytes.length = b.bytes) {s : Scan}
    (complete : b.Complete s) :
    Positioned priv b.participants
      (Function.update s.reg_jrec_info_array (s.reg_idx - 1)
        { s.reg_jrec_info_array (s.reg_idx - 1) with end_offset := s.first_tcom_offset }) b.runs := by
  obtain ⟨front, -⟩ := read_append.mp holds
  have starts : ∀ j < b.participants, (Function.update s.reg_jrec_info_array (s.reg_idx - 1)
      { s.reg_jrec_info_array (s.reg_idx - 1) with end_offset := s.first_tcom_offset } j).working_offset =
        (allOf j b.runs).flatten.length := by
    intro j inside
    by_cases last : j = s.reg_idx - 1
    · rw [← last, Function.update_self]
      exact complete.starts j inside
    · rw [Function.update_of_ne last]
      exact complete.starts j inside
  refine ⟨fun j inside => ?_, fun j inside => ?_, fun j inside => (b.regular j inside).updates⟩
  · rw [starts j inside, ← List.length_append, ← List.flatten_append, ← allOf_succ]
    have index := complete.reg_idx
    by_cases last : j = s.reg_idx - 1
    · have next : j + 1 = b.participants := by omega
      rw [← last, Function.update_self, next]
      exact complete.first
    · rw [Function.update_of_ne last]
      exact complete.ends j (by omega)
  · rw [starts j inside]
    exact read_run front inside

/-- **A well-formed buffer is sorted in its place, and nothing else changes.** -/
theorem TrBuffer.sorted_in_place (statics : Statics) (mem : ByteMemory) (tr_buff : Nat)
    (holds : mem.read tr_buff b.bytes.length = b.bytes) :
    ∃ verdict mem' merged,
      repl_sort_tr_buff statics mem tr_buff b.bytes.length = some (.returns verdict mem') ∧ verdict ≠ .rejected ∧
        b.Sorts merged ∧ mem'.read tr_buff b.bytes.length = merged.flatten ++ b.tcoms.flatten ∧
        ∀ a, a < tr_buff ∨ tr_buff + b.bytes.length ≤ a → mem' a = mem a := by
  obtain ⟨several, begins, commits, agree⟩ := b.ends_read holds
  have inPlace : mem.read tr_buff b.bytes.length = (allOf b.participants b.runs).flatten ++ b.tcoms.flatten := holds
  rw [repl_sort_tr_buff]
  simp only [if_neg several, begins, Bool.not_true, Bool.false_eq_true, if_false, commits, lastParticipants, agree,
    ne_eq, not_true_eq_false]
  by_cases one : b.participants = 1
  · -- a single region is sorted
    have single : allOf b.participants b.runs = b.runs 0 := by
      rw [one, allOf_succ]
      rfl
    have sorted := b.sorts_self (by rw [single]; exact b.sortedRuns.sorted 0 b.positive)
    exact ⟨.single, mem, _, if_pos one, by decide, sorted, inPlace, fun _ _ => rfl⟩
  · rw [if_neg one]
    have buffHolds : ByteMemory.read (fun a => mem (tr_buff + a)) 0 b.bytes.length = b.bytes := by
      rw [read_shift]
      exact holds
    obtain ⟨s, run, complete⟩ := b.scan buffHolds (growArray statics b.participants).reg_jrec_info_array
      (le_growArray statics b.participants)
    have begun : s.reg_idx ≠ 0 := by
      have positive := b.positive
      rw [complete.reg_idx]
      omega
    simp only [run, afterScan, complete.done, complete.balanced, ne_eq, not_true_eq_false, or_self, if_false, if_neg begun]
    cases inOrder : s.already_sorted with
    | true =>
      exact ⟨.sorted, mem, _, if_pos rfl, by decide, complete.sorted inOrder, inPlace, fun _ _ => rfl⟩
    | false =>
      rw [if_neg Bool.false_ne_true]
      have privHolds : ByteMemory.read (fun a =>
          if a < b.bytes.length then mem (tr_buff + a) else
            (growArray statics b.participants).private_tr_buff a) 0 b.bytes.length =
            b.bytes := by
        refine Eq.trans ?_ buffHolds
        apply ByteMemory.read_congr
        intro i inside
        rw [if_pos (by omega)]
      have top : (s.max_updnum + 1) % 2 ^ 32 = s.max_updnum + 1 := by
        have small := complete.small
        omega
      have below : ∀ i < b.participants, ∀ x ∈ b.runs i, updnum x < s.max_updnum + 1 := fun i inside x there =>
        Nat.lt_succ_of_le (complete.greatest x (mem_allOf.mpr ⟨i, inside, there⟩))
      have total : b.bytes.length = (allOf b.participants b.runs).flatten.length + b.tcoms.flatten.length := by
        rw [TrBuffer.bytes, List.length_append]
      have fewer : (allOf b.participants b.runs).length < b.bytes.length + 1 := by
        have some := length_le_flatten fun x there => Nat.le_trans (by decide) (b.updates there).long
        exact Nat.lt_succ_of_le (Nat.le_trans some (by omega))
      obtain ⟨mem', merged, merges, merging, written, frame⟩ :=
        mergeLoop_merges mem tr_buff b.sortedRuns (Merging.start updnum b.participants b.runs)
          (b.positioned privHolds complete) below rfl (b.bytes.length + 1) fewer
      obtain ⟨perm, kept⟩ := merging.complete fun _ _ => rfl
      have size : merged.flatten.length = (allOf b.participants b.runs).flatten.length := perm.flatten.length_eq.symm
      refine ⟨.merged, mem', merged, ?_, by decide, ⟨merging.sorted, perm, kept⟩, ?_, fun a outside => ?_⟩
      · rw [top]
        exact congrArg (Option.map fun mem => Outcome.returns .merged mem) merges
      · obtain ⟨-, back⟩ := read_append.mp inPlace
        have behind : mem'.read (tr_buff + merged.flatten.length) b.tcoms.flatten.length = b.tcoms.flatten := by
          refine Eq.trans ?_ back
          rw [size]
          apply ByteMemory.read_congr
          intro i inside
          exact frame _ (.inr (by omega))
        have length : b.bytes.length = (merged.flatten ++ b.tcoms.flatten).length := by
          rw [List.length_append, size, total]
        rw [length]
        exact read_append.mpr ⟨written, behind⟩
      · exact frame a (by omega)

/-! ## Malformed buffers -/

/-- Whether the records from `tb` on pass the tests of the scan: each has a length within what is left, a commit
record stands for a region that began in front of it, and there are as many of either. The array of regions has no
part in this. -/
def passes (buff : ByteMemory) (tb tlen : Nat) (balanced : Int) : Nat → Bool
  | 0 => tlen = 0 ∧ balanced = 0
  | turns + 1 =>
    if JREC_PREFIX_SIZE ≤ tlen then
      let reclen := forwptr buff tb
      if reclen = 0 ∨ reclen > tlen then false
      else if IS_SET_KILL_ZKILL_ZTWORM_LGTRIG_ZTRIG (jrec_type buff tb) then
        passes buff (tb + reclen) (tlen - reclen)
          (if IS_TUPD (jrec_type buff tb) then balanced + 1 else balanced) turns
      else if 0 > balanced - 1 then false
      else passes buff (tb + reclen) (tlen - reclen) (balanced - 1) turns
    else tlen = 0 ∧ balanced = 0

/-- How many regions begin among the records that the scan reads. -/
def regionsRead (buff : ByteMemory) (tb tlen : Nat) (balanced : Int) : Nat → Nat
  | 0 => 0
  | turns + 1 =>
    if JREC_PREFIX_SIZE ≤ tlen then
      let reclen := forwptr buff tb
      if reclen = 0 ∨ reclen > tlen then 0
      else if IS_SET_KILL_ZKILL_ZTWORM_LGTRIG_ZTRIG (jrec_type buff tb) then
        if IS_TUPD (jrec_type buff tb) then
          regionsRead buff (tb + reclen) (tlen - reclen) (balanced + 1) turns + 1
        else regionsRead buff (tb + reclen) (tlen - reclen) balanced turns
      else if 0 > balanced - 1 then 0
      else regionsRead buff (tb + reclen) (tlen - reclen) (balanced - 1) turns
    else 0

/-- A scan after which the buffer is called malformed. -/
def ScanEnd.Rejects : ScanEnd → Prop
  | .bad => True
  | .overruns => False
  | .done s => s.tlen ≠ 0 ∨ s.balanced ≠ 0

variable {buff : ByteMemory} {entries : Nat}

/-- The scan stores behind the array exactly when more regions begin than there are entries. -/
theorem scanLoop_overruns (s : Scan) (turns : Nat) (within : s.reg_idx ≤ entries) :
    scanLoop buff entries s turns = .overruns ↔
      entries < s.reg_idx + regionsRead buff s.tb s.tlen s.balanced turns := by
  induction turns generalizing s with
  | zero =>
    refine iff_of_false ScanEnd.noConfusion ?_
    change ¬ entries < s.reg_idx + 0
    omega
  | succ turns ih =>
    rw [scanLoop, regionsRead]
    by_cases record : JREC_PREFIX_SIZE ≤ s.tlen
    · rw [if_pos record, if_pos record, scanRecord]
      dsimp only
      by_cases bad : forwptr buff s.tb = 0 ∨ forwptr buff s.tb > s.tlen
      · rw [if_pos bad, if_pos bad]
        refine iff_of_false ScanEnd.noConfusion ?_
        omega
      · rw [if_neg bad, if_neg bad]
        by_cases update : IS_SET_KILL_ZKILL_ZTWORM_LGTRIG_ZTRIG (jrec_type buff s.tb) = true
        · rw [if_pos update, if_pos update]
          by_cases first : IS_TUPD (jrec_type buff s.tb) = true
          · rw [if_pos first]
            by_cases full : entries ≤ s.reg_idx
            · rw [if_pos ⟨first, full⟩, if_pos first]
              refine iff_of_true rfl ?_
              omega
            · rw [if_neg fun both => full both.2, if_pos first]
              refine (ih _ ?_).trans ?_
              · change s.reg_idx + 1 ≤ entries
                omega
              · change entries < s.reg_idx + 1 + regionsRead buff _ _ (s.balanced + 1) turns ↔ _
                rw [Nat.add_assoc, Nat.add_comm 1]
                rfl
          · rw [if_neg first, if_neg fun both => first both.1, if_neg first]
            exact ih _ within
        · rw [if_neg update, if_neg update]
          by_cases early : 0 > s.balanced - 1
          · rw [if_pos early, if_pos early]
            refine iff_of_false ScanEnd.noConfusion ?_
            omega
          · rw [if_neg early, if_neg early]
            exact ih _ within
    · rw [if_neg record, if_neg record]
      refine iff_of_false ScanEnd.noConfusion ?_
      omega

theorem done_rejects (s : Scan) :
    (ScanEnd.done s).Rejects ↔ decide (s.tlen = 0 ∧ s.balanced = 0) = false := by
  rw [decide_eq_false_iff_not, not_and_or]
  rfl

/-- With entries for all regions, the scan rejects what does not pass the tests. -/
theorem scanLoop_rejects (s : Scan) (turns : Nat)
    (within : s.reg_idx + regionsRead buff s.tb s.tlen s.balanced turns ≤ entries) :
    (scanLoop buff entries s turns).Rejects ↔ passes buff s.tb s.tlen s.balanced turns = false := by
  induction turns generalizing s with
  | zero => exact done_rejects s
  | succ turns ih =>
    rw [regionsRead] at within
    rw [scanLoop, passes]
    by_cases record : JREC_PREFIX_SIZE ≤ s.tlen
    · rw [if_pos record] at within
      rw [if_pos record, if_pos record, scanRecord]
      dsimp only at within ⊢
      by_cases bad : forwptr buff s.tb = 0 ∨ forwptr buff s.tb > s.tlen
      · rw [if_pos bad, if_pos bad]
        exact iff_of_true trivial rfl
      · rw [if_neg bad] at within
        rw [if_neg bad, if_neg bad]
        by_cases update : IS_SET_KILL_ZKILL_ZTWORM_LGTRIG_ZTRIG (jrec_type buff s.tb) = true
        · rw [if_pos update] at within
          rw [if_pos update, if_pos update]
          by_cases first : IS_TUPD (jrec_type buff s.tb) = true
          · rw [if_pos first] at within
            rw [if_neg fun both => absurd both.2 (by omega), if_pos first, if_pos first]
            refine ih _ ?_
            change s.reg_idx + 1 + regionsRead buff _ _ (s.balanced + 1) turns ≤ entries
            rw [Nat.add_assoc, Nat.add_comm 1]
            exact within
          · rw [if_neg first] at within
            rw [if_neg fun both => first both.1, if_neg first, if_neg first]
            exact ih _ within
        · rw [if_neg update] at within
          rw [if_neg update, if_neg update]
          by_cases early : 0 > s.balanced - 1
          · rw [if_pos early, if_pos early]
            refine iff_of_true (.inr ?_) rfl
            change s.balanced - 1 ≠ 0
            omega
          · rw [if_neg early] at within
            rw [if_neg early, if_neg early]
            exact ih _ within
    · rw [if_neg record, if_neg record]
      exact done_rejects s

/-- The two facts about the scan of a whole buffer. -/
theorem scan_start (buff : ByteMemory) (grown : Statics) (tr_bufflen : Nat) :
    (scanLoop buff grown.max_participants (.start grown.reg_jrec_info_array tr_bufflen) tr_bufflen = .overruns ↔
      grown.max_participants < regionsRead buff 0 tr_bufflen 0 tr_bufflen) ∧
    (regionsRead buff 0 tr_bufflen 0 tr_bufflen ≤ grown.max_participants →
      ((scanLoop buff grown.max_participants (.start grown.reg_jrec_info_array tr_bufflen) tr_bufflen).Rejects ↔
        passes buff 0 tr_bufflen 0 tr_bufflen = false)) := by
  have overruns := @scanLoop_overruns buff grown.max_participants (.start grown.reg_jrec_info_array tr_bufflen)
    tr_bufflen (Nat.zero_le _)
  have rejects := @scanLoop_rejects buff grown.max_participants (.start grown.reg_jrec_info_array tr_bufflen) tr_bufflen
  unfold Scan.start at overruns rejects ⊢
  rw [Nat.zero_add] at overruns rejects
  exact ⟨overruns, rejects⟩

/-- A buffer of several records that the function calls malformed: it does not begin with the first update of a
region, does not end with a commit record, or is one of several regions whose records do not pass the tests. -/
def Malformed (mem : ByteMemory) (tr_buff tr_bufflen : Nat) : Prop :=
  forwptr (fun a => mem (tr_buff + a)) 0 ≠ tr_bufflen ∧
    (IS_TUPD (jrec_type (fun a => mem (tr_buff + a)) 0) = false ∨
      jrec_type mem (tr_buff + tr_bufflen - TCOM_SIZE) ≠ JRT_TCOM ∨
      lastParticipants mem tr_buff tr_bufflen ≠ 1 ∧
        passes (fun a => mem (tr_buff + a)) 0 tr_bufflen 0 tr_bufflen = false)

instance (mem : ByteMemory) (tr_buff tr_bufflen : Nat) : Decidable (Malformed mem tr_buff tr_bufflen) :=
  inferInstanceAs (Decidable (_ ∧ _))

/-- How many regions begin in the buffer: none when its ends are already wrong. -/
def regionsBegun (mem : ByteMemory) (tr_buff tr_bufflen : Nat) : Nat :=
  if IS_TUPD (jrec_type (fun a => mem (tr_buff + a)) 0) ∧
      jrec_type mem (tr_buff + tr_bufflen - TCOM_SIZE) = JRT_TCOM ∧ lastParticipants mem tr_buff tr_bufflen ≠ 1 then
    regionsRead (fun a => mem (tr_buff + a)) 0 tr_bufflen 0 tr_bufflen
  else 0

/-- The array has an entry for every region that begins in the buffer. -/
def EnoughEntries (statics : Statics) (mem : ByteMemory) (tr_buff tr_bufflen : Nat) : Prop :=
  regionsBegun mem tr_buff tr_bufflen ≤ max statics.max_participants (lastParticipants mem tr_buff tr_bufflen)

instance (statics : Statics) (mem : ByteMemory) (tr_buff tr_bufflen : Nat) :
    Decidable (EnoughEntries statics mem tr_buff tr_bufflen) :=
  inferInstanceAs (Decidable (_ ≤ _))

/-- A new array has the number of entries that is asked for. -/
theorem max_participants_growArray (statics : Statics) (participants : Nat) :
    (growArray statics participants).max_participants = max statics.max_participants participants := by
  unfold growArray
  split
  · change participants = _
    omega
  · omega

variable {statics : Statics} {mem' : ByteMemory} {tr_buff tr_bufflen : Nat}

/-- With the ends of the buffer right, a malformed one is rejected when the array has enough entries, and the scan
stores behind the array when not. -/
theorem afterScan_malformed (grown : Statics) (mem : ByteMemory) (tr_buff tr_bufflen participants : Nat)
    (fails : passes (fun a => mem (tr_buff + a)) 0 tr_bufflen 0 tr_bufflen = false) :
    afterScan grown mem tr_buff tr_bufflen participants
        (scanLoop (fun a => mem (tr_buff + a)) grown.max_participants
          (.start grown.reg_jrec_info_array tr_bufflen) tr_bufflen) =
      if regionsRead (fun a => mem (tr_buff + a)) 0 tr_bufflen 0 tr_bufflen ≤ grown.max_participants then
        some (.returns .rejected mem)
      else some .overruns := by
  obtain ⟨overruns, rejects⟩ := scan_start (fun a => mem (tr_buff + a)) grown tr_bufflen
  by_cases enough : regionsRead (fun a => mem (tr_buff + a)) 0 tr_bufflen 0 tr_bufflen ≤ grown.max_participants
  · have rejected := (rejects enough).mpr fails
    rw [if_pos enough]
    revert rejected
    cases scanLoop (fun a => mem (tr_buff + a)) grown.max_participants
        (.start grown.reg_jrec_info_array tr_bufflen) tr_bufflen with
    | bad => exact fun _ => rfl
    | overruns => exact False.elim
    | done s => exact fun rejected => if_pos rejected
  · rw [if_neg enough, overruns.mpr (Nat.lt_of_not_le enough)]
    rfl

/-- **A malformed buffer is rejected and left as it is when the array has entries for its regions; when not, the
call stores behind the array.** -/
theorem repl_sort_tr_buff_malformed (malformed : Malformed mem tr_buff tr_bufflen) :
    repl_sort_tr_buff statics mem tr_buff tr_bufflen =
      if EnoughEntries statics mem tr_buff tr_bufflen then some (.returns .rejected mem) else some .overruns := by
  obtain ⟨several, malformed⟩ := malformed
  rw [repl_sort_tr_buff]
  unfold EnoughEntries regionsBegun
  dsimp only
  rw [if_neg several]
  by_cases begins : IS_TUPD (jrec_type (fun a => mem (tr_buff + a)) 0) = true
  · rw [if_neg (by rw [begins]; exact Bool.false_ne_true)]
    by_cases commits : jrec_type mem (tr_buff + tr_bufflen - TCOM_SIZE) = JRT_TCOM
    · rw [if_neg (not_not_intro commits)]
      obtain ⟨regions, fails⟩ := (malformed.resolve_left (by rw [begins]; exact Bool.false_ne_true.symm)).resolve_left
        (not_not_intro commits)
      simp only [if_neg regions, if_pos (And.intro begins (And.intro commits regions)), ← max_participants_growArray]
      exact afterScan_malformed _ mem tr_buff tr_bufflen _ fails
    · simp only [if_pos commits, if_neg fun all => commits (And.left (And.right all)), Nat.zero_le, if_true]
  · rw [if_pos (by rw [Bool.eq_false_iff.mpr begins]; rfl)]
    simp only [begins, Bool.false_eq_true, false_and, if_false, Nat.zero_le, if_true]

theorem rejects_malformed_iff (malformed : Malformed mem tr_buff tr_bufflen) :
    repl_sort_tr_buff statics mem tr_buff tr_bufflen = some (.returns .rejected mem) ↔
      EnoughEntries statics mem tr_buff tr_bufflen := by
  rw [repl_sort_tr_buff_malformed malformed]
  split
  · exact iff_of_true rfl ‹_›
  · exact iff_of_false (fun returns => Outcome.noConfusion (Option.some.inj returns)) ‹_›

/-- What is promised of a call: the buffer of a transaction is sorted in its place, and nothing else changes; a
malformed buffer is rejected, and nothing changes. -/
structure Meets (statics : Statics) (mem : ByteMemory) (tr_buff tr_bufflen : Nat) : Prop where
  sorts : ∀ b : TrBuffer, b.bytes.length = tr_bufflen → mem.read tr_buff tr_bufflen = b.bytes →
    ∃ verdict mem' merged,
      repl_sort_tr_buff statics mem tr_buff tr_bufflen = some (.returns verdict mem') ∧ verdict ≠ .rejected ∧
        b.Sorts merged ∧ mem'.read tr_buff tr_bufflen = merged.flatten ++ b.tcoms.flatten ∧
        ∀ a, a < tr_buff ∨ tr_buff + tr_bufflen ≤ a → mem' a = mem a
  rejects : Malformed mem tr_buff tr_bufflen →
    repl_sort_tr_buff statics mem tr_buff tr_bufflen = some (.returns .rejected mem)

/-- An update record without a key. -/
def shortUpdate (rectype number : UInt8) : Record :=
  [rectype, 44, 0, 0] ++ List.replicate 36 0 ++ [number, 0, 0, 0]

/-- A record of a transaction with two participants. -/
def twoTcom : Record := [17, 56, 0, 0] ++ List.replicate 38 0 ++ [2, 0] ++ List.replicate 12 0

/-- The first region makes the second update, and the second region the first and the third. -/
def twoRegions : TrBuffer where
  participants := 2
  runs i := [[shortUpdate 15 2], [shortUpdate 13 1, shortUpdate 16 3]].getD i []
  tcoms := [twoTcom, twoTcom]
  positive := by decide
  regular i inside := by
    have cases : i = 0 ∨ i = 1 := by omega
    rcases cases with rfl | rfl
    · refine ⟨fun x there => ?_, _, _, rfl, by decide, fun x there => absurd there List.not_mem_nil⟩
      rw [List.mem_singleton.mp there]
      exact ⟨by decide, by decide, by decide, by decide⟩
    · refine ⟨fun x there => ?_, _, _, rfl, by decide, fun x there => ?_⟩
      · rcases List.mem_cons.mp there with rfl | later
        · exact ⟨by decide, by decide, by decide, by decide⟩
        · rw [List.mem_singleton.mp later]
          exact ⟨by decide, by decide, by decide, by decide⟩
      · rw [List.mem_singleton.mp there]
        decide
  sortedRuns := by
    refine ⟨fun i inside => ?_, fun i first j second apart x there y here => ?_⟩
    · have cases : i = 0 ∨ i = 1 := by omega
      rcases cases with rfl | rfl
      · exact List.pairwise_singleton _ _
      · refine List.Pairwise.cons (fun y there => ?_) (List.pairwise_singleton _ _)
        rw [List.mem_singleton.mp there]
        decide
    · have numbers : ∀ i < 2, ∀ j < 2, i ≠ j →
          ∀ x ∈ [[shortUpdate 15 2], [shortUpdate 13 1, shortUpdate 16 3]].getD i [],
            ∀ y ∈ [[shortUpdate 15 2], [shortUpdate 13 1, shortUpdate 16 3]].getD j [], updnum x ≠ updnum y := by
        decide
      exact numbers i first j second apart x there y here
  commits x there := by
    have same : x = twoTcom := by
      rcases List.mem_cons.mp there with rfl | later
      · rfl
      · exact List.mem_singleton.mp later
    rw [same]
    exact ⟨by decide, by decide, by decide⟩
  count := rfl
  agree := by decide
  short := by decide +kernel

/-- What a process starts with: no array. -/
def noStatics : Statics := ⟨0, fun _ => ⟨0, 0⟩, fun _ => 0, fun _ => ⟨0, 0⟩⟩

/-- Two regions begin, but the commit record at the end is of none. -/
def uncounted : List UInt8 :=
  shortUpdate 15 1 ++ shortUpdate 15 2 ++ ([17, 56, 0, 0] ++ List.replicate 52 0)

end Ydb.TransactionSort
