import Ydb.Lib.RingOrder

/-!
# Phase-2 commit rings

A transaction reserves space for its journal records in the journal pool and in the
journal buffer while it holds the critical section, and writes them outside of it.
Each reservation has an entry in a ring. The entries from `phase2_commit_index1` up to
`phase2_commit_index2` are not cleaned up yet; the address `write_addr` of the pool,
`freeaddr` of the buffer, is where the first of them starts.

`repl_phase2_cleanup` and `jnl_phase2_cleanup` are the same routine on arrays of
different sizes; the salvaging of an entry differs, and is a parameter.
-/

namespace Ydb

open Lib

/-! ## The routine -/

/-- An entry of the ring: `jpl_phase2_in_prog_t` or `jbuf_phase2_in_prog_t`. -/
structure CommitEntry where
  process_id : Nat
  /-- `start_write_addr` or `start_freeaddr` -/
  start_addr : Nat
  tot_jrec_len : Nat
  prev_jrec_len : Nat
  write_complete : Bool
deriving DecidableEq, Repr

/-- The fields of the journal pool, or of the journal buffer, that the ring needs. -/
structure CommitRing where
  phase2_commit_array : Nat → CommitEntry
  phase2_commit_index1 : Nat
  phase2_commit_index2 : Nat
  /-- `write_addr` or `freeaddr` -/
  write_addr : Nat
  /-- `rsrv_write_addr` or `rsrv_freeaddr` -/
  rsrv_addr : Nat
  lastwrite_len : Nat

def JPL_PHASE2_COMMIT_ARRAY_SIZE : Nat := 16384
def JNL_PHASE2_COMMIT_ARRAY_SIZE : Nat := 4096

/-- `PHASE2_COMMIT_ARRAY_ITERATE_UNTIL_WRITE_COMPLETE_FALSE` from `phs2cmt` on. -/
def iterateUntilIncomplete (array : Nat → CommitEntry) (phs2cmt maxCmt : Nat) : Nat :=
  walk CommitEntry.write_complete array (maxCmt - phs2cmt) phs2cmt

section Routines

variable {α : Type} (salvage : CommitEntry → α → α)

/-- Salvage the entries of dead processes from `deadCmt` on, up to one that is complete,
of this process or of a live one. -/
def salvageDead (is_proc_alive : Nat → Bool) (process_id : Nat) :
    Nat → Nat → (Nat → CommitEntry) → α → (Nat → CommitEntry) × α
  | 0, _, array, mem => (array, mem)
  | fuel + 1, deadCmt, array, mem =>
    let entry := array deadCmt
    if entry.write_complete then (array, mem)
    else if entry.process_id = process_id then (array, mem)
    else if is_proc_alive entry.process_id then (array, mem)
    else
      salvageDead is_proc_alive process_id fuel (deadCmt + 1)
        (Function.update array deadCmt { entry with write_complete := true }) (salvage entry mem)

/-- Where the walk over complete entries ends: the slot reached, the end of the leg it
was reached on, and the new `phase2_commit_index1`. -/
def walkComplete (N : Nat) (array : Nat → CommitEntry) (index1 index2 : Nat) : Nat × Nat × Nat :=
  if index1 < index2 then
    let phs2cmt := iterateUntilIncomplete array index1 index2
    (phs2cmt, index2, phs2cmt)
  else
    let phs2cmt := iterateUntilIncomplete array index1 N
    if phs2cmt = N then
      if index2 ≠ 0 then
        let phs2cmt := iterateUntilIncomplete array 0 index2
        (phs2cmt, index2, if phs2cmt = index2 then index2 else phs2cmt)
      else (phs2cmt, N, index2)
    else (phs2cmt, N, phs2cmt)

/-- The address to publish: the start of the entry reached, or the end of the one before
it at the end of a leg. -/
def publishedAddr (N : Nat) (array : Nat → CommitEntry) (phs2cmt maxCmt : Nat) : Nat :=
  if phs2cmt < maxCmt then (array phs2cmt).start_addr
  else
    let phs2cmt := if phs2cmt = 0 then N else phs2cmt
    (array (phs2cmt - 1)).start_addr + (array (phs2cmt - 1)).tot_jrec_len

/-- Cleanup of the ring by the process `process_id`, which may be in the critical
section. -/
def phase2_cleanup (N : Nat) (is_proc_alive : Nat → Bool) (process_id : Nat) (now_crit : Bool)
    (ring : CommitRing) (mem : α) : CommitRing × α :=
  let index1 := ring.phase2_commit_index1
  let index2 := ring.phase2_commit_index2
  if index1 ≠ index2 then
    let (array, mem) :=
      if (ring.phase2_commit_array index1).write_complete = false ∧ now_crit then
        salvageDead salvage is_proc_alive process_id
          ((if index1 < index2 then index2 else N) - index1) index1 ring.phase2_commit_array mem
      else (ring.phase2_commit_array, mem)
    if (array index1).write_complete then
      let (phs2cmt, maxCmt, index1) := walkComplete N array index1 index2
      ({ ring with
          phase2_commit_array := array
          phase2_commit_index1 := index1
          write_addr := publishedAddr N array phs2cmt maxCmt }, mem)
    else ({ ring with phase2_commit_array := array }, mem)
  else (ring, mem)

/-- Reservation of `len` bytes in the slot at `phase2_commit_index2`, which the callers
wait for: `UPDATE_JPL_RSRV_WRITE_ADDR` or `UPDATE_JBP_RSRV_FREEADDR`. -/
def reserve (N : Nat) (process_id len : Nat) (ring : CommitRing) : CommitRing :=
  { ring with
    phase2_commit_array := Function.update ring.phase2_commit_array ring.phase2_commit_index2
      ⟨process_id, ring.rsrv_addr, len, ring.lastwrite_len, false⟩
    phase2_commit_index2 := ringNext N ring.phase2_commit_index2
    rsrv_addr := ring.rsrv_addr + len
    lastwrite_len := len }

end Routines

/-- The owner of the entry in the slot `index` has written its records. -/
def writeComplete (index : Nat) (ring : CommitRing) : CommitRing :=
  { ring with
    phase2_commit_array := Function.update ring.phase2_commit_array index
      { ring.phase2_commit_array index with write_complete := true } }

/-! ## The walk -/

/-- Where the walk over complete entries ends. The slot divides the ring, everything
before it is complete, and it is the end of the ring or holds an incomplete entry. -/
structure WalkEnd (N : Nat) (array : Nat → CommitEntry) (index1 index2 : Nat)
    (result : Nat × Nat × Nat) : Prop where
  inside : result.2.2 < N
  divides : ∀ {β : Type} (x : Nat → β), ringList N x index1 index2 =
    ringList N x index1 result.2.2 ++ ringList N x result.2.2 index2
  passed : ∀ e ∈ ringList N array index1 result.2.2, e.write_complete = true
  stopped : result.2.2 ≠ index2 → (array result.2.2).write_complete = false ∧
    publishedAddr N array result.1 result.2.1 = (array result.2.2).start_addr
  through : result.2.2 = index2 → ∃ before last, ringList N array index1 index2 = before ++ [last] ∧
    publishedAddr N array result.1 result.2.1 = last.start_addr + last.tot_jrec_len

theorem publishedAddr_stopped {N : Nat} {array : Nat → CommitEntry} {phs2cmt maxCmt : Nat}
    (less : phs2cmt < maxCmt) : publishedAddr N array phs2cmt maxCmt = (array phs2cmt).start_addr :=
  if_pos less

theorem publishedAddr_through {N : Nat} {array : Nat → CommitEntry} {maxCmt : Nat} :
    publishedAddr N array (maxCmt + 1) (maxCmt + 1) =
      (array maxCmt).start_addr + (array maxCmt).tot_jrec_len := by
  rw [publishedAddr, if_neg (Nat.lt_irrefl _), if_neg (Nat.succ_ne_zero maxCmt)]
  rfl

section Walk

variable {N index1 index2 : Nat} {array : Nat → CommitEntry}

/-- One leg, from the first entry to the end of the ring. -/
theorem walkComplete_direct (less : index1 < index2) (inside : index2 < N) :
    WalkEnd N array index1 index2 (walkComplete N array index1 index2) := by
  obtain ⟨least, most, passed, stopped⟩ :=
    walk_spec CommitEntry.write_complete array (Nat.le_of_lt less)
  rw [walkComplete, if_pos less]
  dsimp only [iterateUntilIncomplete]
  generalize walk CommitEntry.write_complete array (index2 - index1) index1 = reached at *
  refine ⟨Nat.lt_of_le_of_lt most inside, ?_, ?_, ?_, ?_⟩
  · intro β x
    rw [ringList, ringList, ringList, if_pos (Nat.le_of_lt less), if_pos least, if_pos most,
      slice_append x least most]
  · rw [ringList, if_pos least]
    exact passed
  · intro differ
    have short : reached < index2 := Nat.lt_of_le_of_ne most differ
    exact ⟨stopped short, publishedAddr_stopped short⟩
  · intro same
    obtain ⟨last, rfl⟩ := Nat.exists_eq_succ_of_ne_zero (by omega : index2 ≠ 0)
    refine ⟨slice array index1 last, array last, ?_, ?_⟩
    · rw [ringList, if_pos (Nat.le_of_lt less), slice_concat array (by omega)]
    · dsimp only at same ⊢
      rw [same]
      exact publishedAddr_through

/-- The first leg of a ring that goes on at slot zero. -/
theorem walkComplete_wrapped (more : index2 < index1) (inside : index1 < N) :
    WalkEnd N array index1 index2 (walkComplete N array index1 index2) := by
  obtain ⟨least, most, passed, stopped⟩ :=
    walk_spec CommitEntry.write_complete array (Nat.le_of_lt inside)
  rw [walkComplete, if_neg (Nat.not_lt.mpr (Nat.le_of_lt more))]
  dsimp only [iterateUntilIncomplete]
  generalize walk CommitEntry.write_complete array (N - index1) index1 = reached at *
  have wraps : ∀ {β : Type} (x : Nat → β), ringList N x index1 index2 =
      slice x index1 N ++ slice x 0 index2 := by
    intro β x
    rw [ringList, if_neg (Nat.not_le.mpr more)]
  by_cases top : reached = N
  · subst top
    rw [if_pos rfl]
    by_cases second : index2 = 0
    · subst second
      rw [if_neg (not_not.mpr rfl)]
      refine ⟨Nat.zero_lt_of_lt inside, ?_, ?_, fun differ => absurd rfl differ, fun _ => ?_⟩
      · intro β x
        rw [ringList_self, List.append_nil]
      · rw [wraps, slice_self, List.append_nil]
        exact passed
      · obtain ⟨last, rfl⟩ := Nat.exists_eq_succ_of_ne_zero (by omega : reached ≠ 0)
        refine ⟨slice array index1 last, array last, ?_, publishedAddr_through⟩
        rw [wraps, slice_self, List.append_nil, slice_concat array (by omega)]
    · rw [if_pos second]
      obtain ⟨_, most', passed', stopped'⟩ :=
        walk_spec CommitEntry.write_complete array (Nat.zero_le index2)
      generalize walk CommitEntry.write_complete array (index2 - 0) 0 = reached' at *
      have next : (if reached' = index2 then index2 else reached') = reached' := by
        split
        · exact Eq.symm ‹_›
        · rfl
      rw [next]
      have firstLeg : ¬ index1 ≤ reached' := by omega
      refine ⟨by dsimp only; omega, ?_, ?_, ?_, ?_⟩
      · intro β x
        dsimp only
        rw [wraps, ringList, ringList, if_neg firstLeg, if_pos most', List.append_assoc,
          slice_append x (Nat.zero_le _) most']
      · intro e member
        dsimp only at member
        rw [ringList, if_neg firstLeg, List.mem_append] at member
        rcases member with member | member
        · exact passed e member
        · exact passed' e member
      · intro differ
        have short : reached' < index2 := Nat.lt_of_le_of_ne most' differ
        exact ⟨stopped' short, publishedAddr_stopped short⟩
      · intro same
        dsimp only at same ⊢
        obtain ⟨last, rfl⟩ := Nat.exists_eq_succ_of_ne_zero second
        refine ⟨slice array index1 reached ++ slice array 0 last, array last, ?_, ?_⟩
        · rw [wraps, Nat.succ_eq_add_one, slice_concat array (Nat.zero_le last), List.append_assoc]
        · rw [same]
          exact publishedAddr_through
  · rw [if_neg top]
    have short : reached < N := Nat.lt_of_le_of_ne most top
    refine ⟨short, ?_, ?_, fun _ => ⟨stopped short, publishedAddr_stopped short⟩, ?_⟩
    · intro β x
      dsimp only
      rw [wraps, ringList, ringList, if_pos least, if_neg (by omega), ← List.append_assoc,
        slice_append x least most]
    · dsimp only
      rw [ringList, if_pos least]
      exact passed
    · intro same
      dsimp only at same
      omega

variable (array) in
/-- The walk ends as it should, with or without a turn at the end of the array. -/
theorem walkComplete_spec (some : index1 ≠ index2) (first : index1 < N) (second : index2 < N) :
    WalkEnd N array index1 index2 (walkComplete N array index1 index2) := by
  rcases Nat.lt_or_gt_of_ne some with less | more
  · exact walkComplete_direct less second
  · exact walkComplete_wrapped more first

end Walk

/-! ## Salvaging -/

/-- An incomplete entry of another process that is not alive. -/
structure CommitEntry.Dead (is_proc_alive : Nat → Bool) (process_id : Nat) (e : CommitEntry) : Prop where
  incomplete : e.write_complete = false
  other : e.process_id ≠ process_id
  notAlive : is_proc_alive e.process_id = false

section Salvage

variable {α : Type} {salvage : CommitEntry → α → α} {is_proc_alive : Nat → Bool} {process_id : Nat}

/-- Only dead entries are touched, and they become complete. -/
theorem salvageDead_spec (fuel deadCmt : Nat) (array : Nat → CommitEntry) (mem : α) (n : Nat) :
    (salvageDead salvage is_proc_alive process_id fuel deadCmt array mem).1 n = array n ∨
      (deadCmt ≤ n ∧ n < deadCmt + fuel ∧ (array n).Dead is_proc_alive process_id ∧
        (salvageDead salvage is_proc_alive process_id fuel deadCmt array mem).1 n =
          { array n with write_complete := true }) := by
  induction fuel generalizing deadCmt array mem with
  | zero => exact .inl rfl
  | succ fuel ih =>
    rw [salvageDead]
    dsimp only
    split
    · exact .inl rfl
    · split
      · exact .inl rfl
      · split
        · exact .inl rfl
        · rename_i incomplete other notAlive
          have dead : (array deadCmt).Dead is_proc_alive process_id :=
            ⟨Bool.eq_false_iff.mpr incomplete, other, Bool.eq_false_iff.mpr notAlive⟩
          rcases ih (deadCmt + 1)
            (Function.update array deadCmt { array deadCmt with write_complete := true })
            (salvage (array deadCmt) mem) with kept | ⟨above, below, entry, salvaged⟩
          · rw [kept]
            by_cases here : n = deadCmt
            · subst here
              rw [Function.update_self]
              exact .inr ⟨Nat.le_refl n, by omega, dead, rfl⟩
            · rw [Function.update_of_ne here]
              exact .inl rfl
          · rw [Function.update_of_ne (by omega)] at entry salvaged
            exact .inr ⟨by omega, by omega, entry, salvaged⟩

end Salvage

/-! ## Cleanup -/

/-- What a process reserved. -/
structure Reservation where
  process_id : Nat
  start_addr : Nat
  tot_jrec_len : Nat
deriving DecidableEq, Repr

/-- What a slot of the ring reserves. -/
def CommitEntry.reservation (e : CommitEntry) : Reservation :=
  ⟨e.process_id, e.start_addr, e.tot_jrec_len⟩

/-- The entries of the ring, in order. -/
def CommitRing.entries (N : Nat) (ring : CommitRing) : List CommitEntry :=
  ringList N ring.phase2_commit_array ring.phase2_commit_index1 ring.phase2_commit_index2

/-- A cleanup of the ring. The slot that `phase2_commit_index1` has moved to divides the
ring. Everything before it is complete, and it holds the first incomplete entry or is
the end of the ring. The published address is that of this entry, or the end of the
last one. Of the incomplete entries, only those of dead processes were changed. -/
structure CleanedUp (N : Nat) (is_proc_alive : Nat → Bool) (process_id : Nat)
    (before after : CommitRing) : Prop where
  index2 : after.phase2_commit_index2 = before.phase2_commit_index2
  rsrv : after.rsrv_addr = before.rsrv_addr
  inside : after.phase2_commit_index1 < N
  salvaged : ∀ n, after.phase2_commit_array n = before.phase2_commit_array n ∨
    (InRing N before.phase2_commit_index1 before.phase2_commit_index2 n ∧
      (before.phase2_commit_array n).Dead is_proc_alive process_id ∧
      after.phase2_commit_array n = { before.phase2_commit_array n with write_complete := true })
  divides : ∀ {β : Type} (x : Nat → β),
    ringList N x before.phase2_commit_index1 before.phase2_commit_index2 =
      ringList N x before.phase2_commit_index1 after.phase2_commit_index1 ++
        ringList N x after.phase2_commit_index1 after.phase2_commit_index2
  passed : ∀ e ∈ ringList N after.phase2_commit_array before.phase2_commit_index1
    after.phase2_commit_index1, e.write_complete = true
  stopped : after.phase2_commit_index1 ≠ after.phase2_commit_index2 →
    (after.phase2_commit_array after.phase2_commit_index1).write_complete = false
  address : (after.phase2_commit_index1 = before.phase2_commit_index1 ∧
      after.write_addr = before.write_addr) ∨
    (after.phase2_commit_index1 ≠ after.phase2_commit_index2 ∧
      after.write_addr = (after.phase2_commit_array after.phase2_commit_index1).start_addr) ∨
    (after.phase2_commit_index1 = after.phase2_commit_index2 ∧
      ∃ front last, ringList N after.phase2_commit_array before.phase2_commit_index1
          before.phase2_commit_index2 = front ++ [last] ∧
        after.write_addr = last.start_addr + last.tot_jrec_len)

section Cleanup

variable {α : Type} {salvage : CommitEntry → α → α} {is_proc_alive : Nat → Bool} {process_id : Nat}
  {N : Nat} {ring : CommitRing}

variable (salvage is_proc_alive process_id) in
/-- What a cleanup does to the ring. -/
theorem phase2_cleanup_spec (now_crit : Bool) (mem : α) (first : ring.phase2_commit_index1 < N)
    (second : ring.phase2_commit_index2 < N) :
    CleanedUp N is_proc_alive process_id ring
      (phase2_cleanup salvage N is_proc_alive process_id now_crit ring mem).1 := by
  unfold phase2_cleanup
  dsimp only
  by_cases some : ring.phase2_commit_index1 = ring.phase2_commit_index2
  · rw [if_neg (not_not.mpr some)]
    refine ⟨rfl, rfl, first, fun n => .inl rfl, ?_, ?_, fun differ => absurd some differ, .inl ⟨rfl, rfl⟩⟩
    · intro β x
      rw [ringList_self, List.nil_append]
    · intro e member
      rw [ringList_self] at member
      cases member
  · rw [if_pos some]
    -- Salvaging stays on the first leg of the ring.
    obtain ⟨array, mem', found, salvaged⟩ : ∃ array mem',
        (if (ring.phase2_commit_array ring.phase2_commit_index1).write_complete = false ∧
            now_crit = true then
          salvageDead salvage is_proc_alive process_id
            ((if ring.phase2_commit_index1 < ring.phase2_commit_index2 then ring.phase2_commit_index2
              else N) - ring.phase2_commit_index1) ring.phase2_commit_index1
            ring.phase2_commit_array mem
        else (ring.phase2_commit_array, mem)) = (array, mem') ∧
        ∀ n, array n = ring.phase2_commit_array n ∨
          (InRing N ring.phase2_commit_index1 ring.phase2_commit_index2 n ∧
            (ring.phase2_commit_array n).Dead is_proc_alive process_id ∧
            array n = { ring.phase2_commit_array n with write_complete := true }) := by
      split
      · refine ⟨_, _, rfl, ?_⟩
        intro n
        rcases salvageDead_spec _ _ _ _ n with kept | ⟨above, below, dead, changed⟩
        · exact .inl kept
        · refine .inr ⟨?_, dead, changed⟩
          unfold InRing
          split at below <;> split <;> omega
      · exact ⟨_, _, rfl, fun n => .inl rfl⟩
    rw [found]
    dsimp only
    split
    · have ends := walkComplete_spec array some first second
      generalize walkComplete N array ring.phase2_commit_index1 ring.phase2_commit_index2 = result at ends
      refine ⟨rfl, rfl, ends.inside, salvaged, ends.divides, ends.passed, fun differ =>
        (ends.stopped differ).1, .inr ?_⟩
      dsimp only
      by_cases through : result.2.2 = ring.phase2_commit_index2
      · exact .inr ⟨through, ends.through through⟩
      · exact .inl ⟨through, (ends.stopped through).2⟩
    · rename_i incomplete
      refine ⟨rfl, rfl, first, salvaged, ?_, ?_, fun _ => Bool.eq_false_iff.mpr incomplete,
        .inl ⟨rfl, rfl⟩⟩
      · intro β x
        rw [ringList_self, List.nil_append]
      · intro e member
        dsimp only at member
        rw [ringList_self] at member
        cases member

end Cleanup

/-! The ring after a cleanup does not depend on what salvaging writes. -/

section Independence

variable {α β : Type} {is_proc_alive : Nat → Bool} {process_id : Nat}

theorem salvageDead_array (salvage : CommitEntry → α → α) (salvage' : CommitEntry → β → β)
    (fuel deadCmt : Nat) (array : Nat → CommitEntry) (mem : α) (mem' : β) :
    (salvageDead salvage is_proc_alive process_id fuel deadCmt array mem).1 =
      (salvageDead salvage' is_proc_alive process_id fuel deadCmt array mem').1 := by
  induction fuel generalizing deadCmt array mem mem' with
  | zero => rfl
  | succ fuel ih =>
    rw [salvageDead, salvageDead]
    split
    · rfl
    · split
      · rfl
      · split
        · rfl
        · apply ih

theorem phase2_cleanup_ring (salvage : CommitEntry → α → α) (salvage' : CommitEntry → β → β)
    (N : Nat) (now_crit : Bool) (ring : CommitRing) (mem : α) (mem' : β) :
    (phase2_cleanup salvage N is_proc_alive process_id now_crit ring mem).1 =
      (phase2_cleanup salvage' N is_proc_alive process_id now_crit ring mem').1 := by
  unfold phase2_cleanup
  dsimp only
  split
  · by_cases salvages : (ring.phase2_commit_array ring.phase2_commit_index1).write_complete = false ∧
      now_crit = true
    · simp only [if_pos salvages]
      rw [salvageDead_array salvage salvage' _ _ _ mem mem', apply_ite Prod.fst, apply_ite Prod.fst]
    · simp only [if_neg salvages]
      rw [apply_ite Prod.fst, apply_ite Prod.fst]
  · rfl

end Independence

end Ydb
