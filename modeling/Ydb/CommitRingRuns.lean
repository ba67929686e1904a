import Mathlib.Logic.Relation
import Ydb.CommitRing

/-!
# Runs of a commit ring

Any number of processes reserve, complete and clean up, in any order, and may die
between two steps. The state also records what was ever reserved and which entries
were cleaned up. The entries that were cleaned up and those on the ring together are
the reservations in their order, they lie end to end, and the published address is
where the ring begins.
-/

namespace Ydb

open Lib

/-! ## Chains of reservations -/

/-- Reservations that lie end to end from one address to another. -/
def Chained (a : Nat) : List Reservation → Nat → Prop
  | [], b => a = b
  | r :: rest, b => r.start_addr = a ∧ Chained (a + r.tot_jrec_len) rest b

namespace Chained

variable {a b c : Nat} {l m : List Reservation}

theorem append (first : Chained a l b) (second : Chained b m c) : Chained a (l ++ m) c := by
  induction l generalizing a with
  | nil =>
    obtain rfl : a = b := first
    exact second
  | cons r rest ih => exact ⟨first.1, ih first.2⟩

theorem split (chained : Chained a (l ++ m) c) : ∃ b, Chained a l b ∧ Chained b m c := by
  induction l generalizing a with
  | nil => exact ⟨a, rfl, chained⟩
  | cons r rest ih =>
    obtain ⟨b, first, second⟩ := ih chained.2
    exact ⟨b, ⟨chained.1, first⟩, second⟩

theorem le (chained : Chained a l b) : a ≤ b := by
  induction l generalizing a with
  | nil => exact Nat.le_of_eq chained
  | cons r rest ih =>
    exact Nat.le_trans (Nat.le_add_right _ _) (ih chained.2)

theorem mem_bounds (chained : Chained a l b) {r : Reservation} (member : r ∈ l) :
    a ≤ r.start_addr ∧ r.start_addr + r.tot_jrec_len ≤ b := by
  induction l generalizing a with
  | nil => cases member
  | cons head rest ih =>
    rcases List.mem_cons.mp member with rfl | member
    · obtain ⟨starts, chained⟩ := chained
      have reached := chained.le
      omega
    · have bounds := ih chained.2 member
      omega

/-- Every address between the ends belongs to a reservation. -/
theorem covered (chained : Chained a l b) {addr : Nat} (above : a ≤ addr) (below : addr < b) :
    ∃ r ∈ l, r.start_addr ≤ addr ∧ addr < r.start_addr + r.tot_jrec_len := by
  induction l generalizing a with
  | nil =>
    obtain rfl : a = b := chained
    omega
  | cons head rest ih =>
    obtain ⟨starts, chained⟩ := chained
    by_cases here : addr < a + head.tot_jrec_len
    · exact ⟨head, List.mem_cons_self, by omega, by omega⟩
    · obtain ⟨r, member, bounds⟩ := ih chained (by omega)
      exact ⟨r, List.mem_cons_of_mem _ member, bounds⟩

/-- Where the last of the reservations ends. -/
def lastEnd (origin : Nat) (l : List Reservation) : Nat :=
  match l.getLast? with
  | none => origin
  | some r => r.start_addr + r.tot_jrec_len

theorem lastEnd_eq (chained : Chained a l b) : lastEnd a l = b := by
  rcases List.eq_nil_or_concat l with rfl | ⟨front, r, rfl⟩
  · exact chained
  · rw [List.concat_eq_append] at chained ⊢
    obtain ⟨c, _, starts, ends⟩ := chained.split
    rw [lastEnd, List.getLast?_append, List.getLast?_singleton, Option.some_or]
    rw [← starts] at ends
    exact ends

end Chained

/-! ## The system -/

/-- The ring, the processes and what readers see. -/
structure RingState where
  ring : CommitRing
  is_proc_alive : Nat → Bool
  /-- The process in the critical section. -/
  crit : Option Nat
  /-- Everything that was ever reserved. -/
  reservations : List Reservation
  /-- The entries that cleanups have passed. -/
  cleaned : List CommitEntry

/-- The ring after a cleanup by the process `p`. -/
def RingState.afterCleanup (N : Nat) (s : RingState) (p : Nat) : CommitRing :=
  (phase2_cleanup (fun _ mem => mem) N s.is_proc_alive p (s.crit == some p) s.ring ()).1

/-- What a process does next. -/
inductive RingStep (N : Nat) : RingState → RingState → Prop where
  | start (s : RingState) (p : Nat) (absent : s.is_proc_alive p = false) :
      RingStep N s { s with is_proc_alive := Function.update s.is_proc_alive p true }
  | die (s : RingState) (p : Nat) (alive : s.is_proc_alive p = true) :
      RingStep N s { s with
        is_proc_alive := Function.update s.is_proc_alive p false
        crit := if s.crit = some p then none else s.crit }
  | enter (s : RingState) (p : Nat) (alive : s.is_proc_alive p = true) (free : s.crit = none) :
      RingStep N s { s with crit := some p }
  | leave (s : RingState) (p : Nat) (holds : s.crit = some p) :
      RingStep N s { s with crit := none }
  | reserve (s : RingState) (p len : Nat) (alive : s.is_proc_alive p = true)
      (holds : s.crit = some p)
      (notFull : ringNext N s.ring.phase2_commit_index2 ≠ s.ring.phase2_commit_index1) :
      RingStep N s { s with
        ring := reserve N p len s.ring
        reservations := s.reservations ++ [⟨p, s.ring.rsrv_addr, len⟩] }
  | complete (s : RingState) (p index : Nat) (alive : s.is_proc_alive p = true)
      (inside : InRing N s.ring.phase2_commit_index1 s.ring.phase2_commit_index2 index)
      (owner : (s.ring.phase2_commit_array index).process_id = p)
      (incomplete : (s.ring.phase2_commit_array index).write_complete = false) :
      RingStep N s { s with ring := writeComplete index s.ring }
  | cleanup (s : RingState) (p : Nat) (alive : s.is_proc_alive p = true) :
      RingStep N s { s with
        ring := s.afterCleanup N p
        cleaned := s.cleaned ++ ringList N (s.afterCleanup N p).phase2_commit_array
          s.ring.phase2_commit_index1 (s.afterCleanup N p).phase2_commit_index1 }

/-- An empty ring whose first reservation will start at `origin`. -/
structure RingState.Initial (N origin : Nat) (s : RingState) : Prop where
  slots : 0 < N
  index1 : s.ring.phase2_commit_index1 = 0
  index2 : s.ring.phase2_commit_index2 = 0
  write_addr : s.ring.write_addr = origin
  rsrv_addr : s.ring.rsrv_addr = origin
  reservations : s.reservations = []
  cleaned : s.cleaned = []

/-- The slot of the first incomplete entry in ring order, or the end of the ring. -/
def firstIncomplete (N : Nat) (array : Nat → CommitEntry) (index1 index2 : Nat) : Nat :=
  ((ringList N id index1 index2).find? fun n => !(array n).write_complete).getD index2

/-- Where the first incomplete entry starts, or where everything ends. -/
def firstIncompleteAddr (N : Nat) (array : Nat → CommitEntry) (index1 index2 ends : Nat) : Nat :=
  match (ringList N array index1 index2).find? fun e => !e.write_complete with
  | none => ends
  | some e => e.start_addr

/-- What holds between two steps. -/
structure RingInv (N origin : Nat) (s : RingState) : Prop where
  first : s.ring.phase2_commit_index1 < N
  second : s.ring.phase2_commit_index2 < N
  ordered : s.reservations = s.cleaned.map CommitEntry.reservation ++
    (s.ring.entries N).map CommitEntry.reservation
  complete : ∀ e ∈ s.cleaned, e.write_complete = true
  below : Chained origin (s.cleaned.map CommitEntry.reservation) s.ring.write_addr
  above : Chained s.ring.write_addr ((s.ring.entries N).map CommitEntry.reservation) s.ring.rsrv_addr

section Invariant

variable {N origin : Nat} {s s' : RingState}

theorem RingState.Initial.inv (initial : s.Initial N origin) : RingInv N origin s := by
  have noEntries : s.ring.entries N = [] := by
    rw [CommitRing.entries, initial.index1, initial.index2, ringList_self]
  refine ⟨by rw [initial.index1]; exact initial.slots, by rw [initial.index2]; exact initial.slots, ?_, ?_,
    ?_, ?_⟩
  · rw [initial.reservations, initial.cleaned, noEntries]
    rfl
  · intro e member
    rw [initial.cleaned] at member
    cases member
  · rw [initial.cleaned, initial.write_addr]
    exact rfl
  · rw [noEntries, initial.write_addr, initial.rsrv_addr]
    exact rfl

theorem ringNext_lt {i : Nat} (some : 0 < N) (inside : i < N) : ringNext N i < N := by
  unfold ringNext
  split <;> omega

/-- The entries, as reservations, depend on nothing but the reservations in the array. -/
theorem entries_reservations (ring : CommitRing) : (ring.entries N).map CommitEntry.reservation =
    ringList N (CommitEntry.reservation ∘ ring.phase2_commit_array) ring.phase2_commit_index1
      ring.phase2_commit_index2 := ringList_map _ _ _ _ _

theorem reserve_entries (p len : Nat) {ring : CommitRing} (first : ring.phase2_commit_index1 < N)
    (notFull : ringNext N ring.phase2_commit_index2 ≠ ring.phase2_commit_index1) :
    (reserve N p len ring).entries N =
      ring.entries N ++ [⟨p, ring.rsrv_addr, len, ring.lastwrite_len, false⟩] :=
  ringList_push first notFull _

theorem writeComplete_reservations (index : Nat) (ring : CommitRing) :
    ((writeComplete index ring).entries N).map CommitEntry.reservation =
      (ring.entries N).map CommitEntry.reservation := by
  have same : CommitEntry.reservation ∘ (writeComplete index ring).phase2_commit_array =
      CommitEntry.reservation ∘ ring.phase2_commit_array := by
    funext n
    simp only [Function.comp_apply, writeComplete]
    by_cases here : n = index
    · subst here
      rw [Function.update_self]
      rfl
    · rw [Function.update_of_ne here]
  rw [entries_reservations, entries_reservations, same]
  rfl

theorem CleanedUp.reservations {is_proc_alive : Nat → Bool} {p : Nat} {before after : CommitRing}
    (cleaned : CleanedUp N is_proc_alive p before after) :
    CommitEntry.reservation ∘ after.phase2_commit_array =
      CommitEntry.reservation ∘ before.phase2_commit_array := by
  funext n
  simp only [Function.comp_apply]
  rcases cleaned.salvaged n with kept | ⟨_, _, changed⟩
  · rw [kept]
  · rw [changed]
    rfl

/-- A cleanup takes the passed entries from the front of the ring, and publishes the
address where the rest begins. -/
theorem CleanedUp.chains {is_proc_alive : Nat → Bool} {p : Nat} {before after : CommitRing}
    (cleaned : CleanedUp N is_proc_alive p before after)
    (chained : Chained before.write_addr ((before.entries N).map CommitEntry.reservation)
      before.rsrv_addr) :
    (before.entries N).map CommitEntry.reservation =
        (ringList N after.phase2_commit_array before.phase2_commit_index1
          after.phase2_commit_index1).map CommitEntry.reservation ++
        (after.entries N).map CommitEntry.reservation ∧
      Chained before.write_addr ((ringList N after.phase2_commit_array before.phase2_commit_index1
        after.phase2_commit_index1).map CommitEntry.reservation) after.write_addr ∧
      Chained after.write_addr ((after.entries N).map CommitEntry.reservation) after.rsrv_addr := by
  have divided : (before.entries N).map CommitEntry.reservation =
      (ringList N after.phase2_commit_array before.phase2_commit_index1
        after.phase2_commit_index1).map CommitEntry.reservation ++
      (after.entries N).map CommitEntry.reservation := by
    rw [entries_reservations, ← cleaned.reservations, cleaned.divides, ringList_map, entries_reservations]
  refine ⟨divided, ?_⟩
  have whole := chained
  rw [divided] at chained
  obtain ⟨c, front, rest⟩ := chained.split
  rw [cleaned.rsrv]
  -- The address where the chain is divided is the published one.
  have published : c = after.write_addr := by
    rcases cleaned.address with ⟨still, same⟩ | ⟨some, same⟩ | ⟨none, before', last, ends, same⟩
    · rw [still, ringList_self] at front
      exact front.symm.trans same.symm
    · obtain ⟨others, shape⟩ := ringList_cons (a := after.phase2_commit_array) cleaned.inside some
      rw [CommitRing.entries, shape] at rest
      exact rest.1.symm.trans same.symm
    · rw [CommitRing.entries, none, ringList_self] at rest
      have reached : last.start_addr + last.tot_jrec_len = before.rsrv_addr := by
        rw [entries_reservations, ← cleaned.reservations, ← ringList_map, ends, List.map_append] at whole
        obtain ⟨_, _, lastChained⟩ := whole.split
        obtain ⟨starts, reached⟩ := lastChained
        rw [← starts] at reached
        exact reached
      rw [same, reached]
      exact rest
  rw [published] at front rest
  exact ⟨front, rest⟩

theorem RingState.afterCleanup_spec (inv : RingInv N origin s) (p : Nat) :
    CleanedUp N s.is_proc_alive p s.ring (s.afterCleanup N p) :=
  phase2_cleanup_spec _ _ _ _ _ inv.first inv.second

/-- A step keeps the invariant. -/
theorem RingStep.inv (step : RingStep N s s') (inv : RingInv N origin s) : RingInv N origin s' := by
  cases step with
  | start p absent => exact ⟨inv.first, inv.second, inv.ordered, inv.complete, inv.below, inv.above⟩
  | die p alive => exact ⟨inv.first, inv.second, inv.ordered, inv.complete, inv.below, inv.above⟩
  | enter p alive free => exact ⟨inv.first, inv.second, inv.ordered, inv.complete, inv.below, inv.above⟩
  | leave p holds => exact ⟨inv.first, inv.second, inv.ordered, inv.complete, inv.below, inv.above⟩
  | reserve p len alive holds notFull =>
    have entries := reserve_entries p len inv.first notFull
    refine ⟨inv.first, ringNext_lt (Nat.zero_lt_of_lt inv.first) inv.second, ?_, inv.complete, inv.below, ?_⟩
    · dsimp only
      rw [entries, inv.ordered, List.map_append, List.append_assoc]
      rfl
    · dsimp only
      rw [entries, List.map_append]
      exact inv.above.append ⟨rfl, rfl⟩
  | complete p index alive inside owner incomplete =>
    refine ⟨inv.first, inv.second, ?_, inv.complete, inv.below, ?_⟩
    · dsimp only
      rw [writeComplete_reservations]
      exact inv.ordered
    · dsimp only
      rw [writeComplete_reservations]
      exact inv.above
  | cleanup p alive =>
    have cleaned := RingState.afterCleanup_spec inv p
    obtain ⟨divided, front, rest⟩ := cleaned.chains inv.above
    refine ⟨cleaned.inside, ?_, ?_, ?_, ?_, rest⟩
    · dsimp only
      rw [cleaned.index2]
      exact inv.second
    · dsimp only
      rw [inv.ordered, divided, List.map_append, List.append_assoc]
    · intro e member
      rcases List.mem_append.mp member with member | member
      · exact inv.complete e member
      · exact cleaned.passed e member
    · dsimp only
      rw [List.map_append]
      exact inv.below.append front

end Invariant

/-! ## What a cleanup publishes -/

section Published

variable {N origin : Nat} {s s' : RingState} {is_proc_alive : Nat → Bool} {p : Nat}
  {before after : CommitRing}

theorem find_passed {β : Type} (test : β → Bool) {front back : List β}
    (passed : ∀ x ∈ front, test x = true) :
    (front ++ back).find? (fun x => !test x) = back.find? fun x => !test x := by
  have none : front.find? (fun x => !test x) = .none := by
    rw [List.find?_eq_none]
    intro x member
    rw [passed x member]
    decide
  rw [List.find?_append, none, Option.none_or]

theorem CleanedUp.index1_eq (cleaned : CleanedUp N is_proc_alive p before after) :
    after.phase2_commit_index1 = firstIncomplete N after.phase2_commit_array
      before.phase2_commit_index1 before.phase2_commit_index2 := by
  have passed : ∀ n ∈ ringList N id before.phase2_commit_index1 after.phase2_commit_index1,
      (after.phase2_commit_array n).write_complete = true := by
    intro n member
    obtain ⟨m, inside, rfl⟩ := mem_ringList.mp member
    exact cleaned.passed _ (mem_ringList.mpr ⟨m, inside, rfl⟩)
  rw [firstIncomplete, cleaned.divides,
    find_passed (fun n => (after.phase2_commit_array n).write_complete) passed]
  by_cases none : after.phase2_commit_index1 = after.phase2_commit_index2
  · rw [none, ringList_self, cleaned.index2]
    rfl
  · obtain ⟨rest, shape⟩ := ringList_cons (a := id) cleaned.inside none
    rw [shape, List.find?_cons_of_pos]
    · rfl
    · rw [id, cleaned.stopped none]
      rfl

theorem CleanedUp.write_addr_eq (cleaned : CleanedUp N is_proc_alive p before after)
    (chained : Chained before.write_addr ((before.entries N).map CommitEntry.reservation)
      before.rsrv_addr) :
    after.write_addr = firstIncompleteAddr N after.phase2_commit_array before.phase2_commit_index1
      before.phase2_commit_index2 before.rsrv_addr := by
  obtain ⟨_, _, rest⟩ := cleaned.chains chained
  rw [CommitRing.entries] at rest
  rw [firstIncompleteAddr, cleaned.divides, find_passed _ cleaned.passed]
  by_cases none : after.phase2_commit_index1 = after.phase2_commit_index2
  · rw [none, ringList_self] at rest ⊢
    rw [← cleaned.rsrv]
    exact rest
  · obtain ⟨others, shape⟩ := ringList_cons (a := after.phase2_commit_array) cleaned.inside none
    rw [shape] at rest ⊢
    rw [List.find?_cons_of_pos]
    · exact rest.1.symm
    · rw [cleaned.stopped none]
      rfl

/-- What is left behind by a cleanup in the state `s`: the ring begins at the first
incomplete entry, whose start is published, and only entries of processes that are not
alive were salvaged. -/
structure PublishesFirst (N origin : Nat) (s : RingState) (after : CommitRing) : Prop where
  index1 : after.phase2_commit_index1 = firstIncomplete N after.phase2_commit_array
    s.ring.phase2_commit_index1 s.ring.phase2_commit_index2
  write_addr : after.write_addr = firstIncompleteAddr N after.phase2_commit_array
    s.ring.phase2_commit_index1 s.ring.phase2_commit_index2 (Chained.lastEnd origin s.reservations)
  salvaged : ∀ n, after.phase2_commit_array n ≠ s.ring.phase2_commit_array n →
    s.is_proc_alive (s.ring.phase2_commit_array n).process_id = false ∧
      after.phase2_commit_array n = { s.ring.phase2_commit_array n with write_complete := true }

/-- Everything from `origin` up to the published address belongs to complete entries, and
whatever was reserved there is one of them. -/
structure CompleteBelow (origin : Nat) (s : RingState) : Prop where
  addresses : ∀ addr, origin ≤ addr → addr < s.ring.write_addr → ∃ e ∈ s.cleaned,
    e.write_complete = true ∧ e.start_addr ≤ addr ∧ addr < e.start_addr + e.tot_jrec_len
  reservations : ∀ r ∈ s.reservations, r.start_addr < s.ring.write_addr → ∃ e ∈ s.cleaned,
    e.write_complete = true ∧ e.reservation = r

theorem RingInv.whole (inv : RingInv N origin s) : Chained origin s.reservations s.ring.rsrv_addr := by
  rw [inv.ordered]
  exact inv.below.append inv.above

theorem RingInv.publishes {α : Type} (inv : RingInv N origin s) (salvage : CommitEntry → α → α)
    (p : Nat) (now_crit : Bool) (mem : α) : PublishesFirst N origin s
      (phase2_cleanup salvage N s.is_proc_alive p now_crit s.ring mem).1 := by
  have cleaned := phase2_cleanup_spec salvage s.is_proc_alive p now_crit mem inv.first inv.second
  refine ⟨cleaned.index1_eq, ?_, ?_⟩
  · rw [inv.whole.lastEnd_eq]
    exact cleaned.write_addr_eq inv.above
  · intro n changed
    rcases cleaned.salvaged n with kept | ⟨_, dead, marked⟩
    · exact absurd kept changed
    · exact ⟨dead.notAlive, marked⟩

theorem RingInv.completeBelow (inv : RingInv N origin s) : CompleteBelow origin s := by
  constructor
  · intro addr above below
    obtain ⟨r, covering, bounds⟩ := inv.below.covered above below
    obtain ⟨e, member, rfl⟩ := List.mem_map.mp covering
    exact ⟨e, member, inv.complete e member, bounds⟩
  · intro r member below
    rw [inv.ordered, List.mem_append] at member
    rcases member with member | member
    · obtain ⟨e, member, same⟩ := List.mem_map.mp member
      exact ⟨e, member, inv.complete e member, same⟩
    · have bounds := inv.above.mem_bounds member
      omega

/-- No step takes the published address back. -/
theorem RingStep.write_addr_le (step : RingStep N s s') (inv : RingInv N origin s) :
    s.ring.write_addr ≤ s'.ring.write_addr := by
  cases step with
  | start p absent => exact Nat.le_refl _
  | die p alive => exact Nat.le_refl _
  | enter p alive free => exact Nat.le_refl _
  | leave p holds => exact Nat.le_refl _
  | reserve p len alive holds notFull => exact Nat.le_refl _
  | complete p index alive inside owner incomplete => exact Nat.le_refl _
  | cleanup p alive =>
    obtain ⟨_, front, _⟩ := (RingState.afterCleanup_spec inv p).chains inv.above
    exact front.le

end Published

/-! ## Whole runs -/

section Runs

variable {N origin : Nat} {s s' : RingState}

theorem RingInv.run (inv : RingInv N origin s) (run : Relation.ReflTransGen (RingStep N) s s') :
    RingInv N origin s' := by
  induction run with
  | refl => exact inv
  | tail _ step ih => exact step.inv ih

theorem RingInv.run_write_addr_le (inv : RingInv N origin s)
    (run : Relation.ReflTransGen (RingStep N) s s') : s.ring.write_addr ≤ s'.ring.write_addr := by
  induction run with
  | refl => exact Nat.le_refl _
  | tail before step ih =>
    exact Nat.le_trans ih (step.write_addr_le (inv.run before))

end Runs

/-! ## Reaching the end of the ring -/

/-- A cleanup goes to the end of a ring whose entries are all complete. -/
theorem CleanedUp.empties {N p : Nat} {is_proc_alive : Nat → Bool} {before after : CommitRing}
    (cleaned : CleanedUp N is_proc_alive p before after)
    (complete : ∀ n, InRing N before.phase2_commit_index1 before.phase2_commit_index2 n →
      (before.phase2_commit_array n).write_complete = true) :
    after.phase2_commit_index1 = before.phase2_commit_index2 := by
  rw [← cleaned.index2]
  by_contra some
  obtain ⟨rest, shape⟩ := ringList_cons (a := after.phase2_commit_array) cleaned.inside some
  have onRing : after.phase2_commit_array after.phase2_commit_index1 ∈
      ringList N after.phase2_commit_array before.phase2_commit_index1 before.phase2_commit_index2 := by
    rw [cleaned.divides, shape]
    exact List.mem_append_right _ List.mem_cons_self
  obtain ⟨n, inside, here⟩ := mem_ringList.mp onRing
  have incomplete := cleaned.stopped some
  rw [← here] at incomplete
  rcases cleaned.salvaged n with kept | ⟨_, _, marked⟩
  · rw [kept, complete n inside] at incomplete
    cases incomplete
  · rw [marked] at incomplete
    cases incomplete

theorem reserve_at (N p len : Nat) (ring : CommitRing) :
    (reserve N p len ring).phase2_commit_array ring.phase2_commit_index2 =
      ⟨p, ring.rsrv_addr, len, ring.lastwrite_len, false⟩ := Function.update_self _ _ _

/-- A process that alone reserves, completes and cleans up moves an empty ring on by one
slot. -/
theorem RingStep.transaction {N origin p : Nat} {s : RingState} (inv : RingInv N origin s)
    (slots : 1 < N) (len : Nat) (alive : s.is_proc_alive p = true) (free : s.crit = none)
    (empty : s.ring.phase2_commit_index1 = s.ring.phase2_commit_index2) :
    ∃ s', Relation.ReflTransGen (RingStep N) s s' ∧ s'.is_proc_alive p = true ∧ s'.crit = none ∧
      s'.ring.phase2_commit_index1 = ringNext N s.ring.phase2_commit_index1 ∧
      s'.ring.phase2_commit_index2 = ringNext N s.ring.phase2_commit_index1 := by
  have notFull : ringNext N s.ring.phase2_commit_index2 ≠ s.ring.phase2_commit_index1 := by
    unfold ringNext
    split <;> omega
  have entered : Relation.ReflTransGen (RingStep N) s _ := .single (.enter s p alive free)
  have reserved := entered.tail (.reserve _ p len alive rfl notFull)
  have inside := inRing_pushed inv.first notFull
  have placed := reserve_at N p len s.ring
  have completed := reserved.tail (.complete _ p s.ring.phase2_commit_index2 alive inside
    (congrArg CommitEntry.process_id placed) (congrArg CommitEntry.write_complete placed))
  have cleaned := RingState.afterCleanup_spec (inv.run completed) p
  have gone := completed.tail (.cleanup _ p alive)
  refine ⟨_, gone.tail (.leave _ p rfl), alive, rfl, ?_, ?_⟩
  · rw [empty]
    apply cleaned.empties
    intro n within
    -- The ring has the one slot that was reserved, which is complete.
    have only : n = s.ring.phase2_commit_index2 := by
      dsimp only [writeComplete, Ydb.reserve] at within
      unfold ringNext InRing at within
      split at within <;> split at within <;> omega
    subst only
    dsimp only [writeComplete]
    rw [Function.update_self]
  · rw [empty]
    exact cleaned.index2

/-- A ring of any position is reached by transactions one after the other. -/
theorem RingInv.reaches {N origin p : Nat} {s : RingState} (inv : RingInv N origin s)
    (slots : 1 < N) (alive : s.is_proc_alive p = true) (free : s.crit = none)
    (first : s.ring.phase2_commit_index1 = 0) (second : s.ring.phase2_commit_index2 = 0)
    (len : Nat) {n : Nat} (inside : n < N) :
    ∃ s', Relation.ReflTransGen (RingStep N) s s' ∧ s'.is_proc_alive p = true ∧ s'.crit = none ∧
      s'.ring.phase2_commit_index1 = n ∧ s'.ring.phase2_commit_index2 = n := by
  induction n with
  | zero => exact ⟨s, .refl, alive, free, first, second⟩
  | succ n ih =>
    obtain ⟨s', run, alive', free', first', second'⟩ := ih (by omega)
    obtain ⟨s'', further, alive'', free'', first'', second''⟩ :=
      RingStep.transaction (inv.run run) slots len alive' free' (first'.trans second'.symm)
    have next : ringNext N n = n + 1 := if_neg (by omega)
    rw [first', next] at first'' second''
    exact ⟨s'', run.trans further, alive'', free'', first'', second''⟩

/-- From the last slot a transaction takes the ring around to slot zero. -/
theorem RingInv.wraps {N origin p : Nat} {s : RingState} (inv : RingInv N origin s)
    (slots : 1 < N) (alive : s.is_proc_alive p = true) (free : s.crit = none)
    (first : s.ring.phase2_commit_index1 = N - 1) (second : s.ring.phase2_commit_index2 = N - 1)
    (len : Nat) :
    ∃ s', Relation.ReflTransGen (RingStep N) s s' ∧ s'.ring.phase2_commit_index1 = N - 1 ∧
      s'.ring.phase2_commit_index2 = 0 ∧
      s'.ring.phase2_commit_array (N - 1) = ⟨p, s.ring.rsrv_addr, len, s.ring.lastwrite_len, true⟩ := by
  have next : ringNext N s.ring.phase2_commit_index2 = 0 := by
    rw [second]
    exact if_pos (by omega)
  have notFull : ringNext N s.ring.phase2_commit_index2 ≠ s.ring.phase2_commit_index1 := by
    omega
  have placed := reserve_at N p len s.ring
  have entered : Relation.ReflTransGen (RingStep N) s _ := .single (.enter s p alive free)
  have reserved := entered.tail (.reserve _ p len alive rfl notFull)
  have completed := reserved.tail (.complete _ p s.ring.phase2_commit_index2 alive
    (inRing_pushed inv.first notFull) (congrArg CommitEntry.process_id placed)
    (congrArg CommitEntry.write_complete placed))
  refine ⟨_, completed, first, next, ?_⟩
  rw [← second]
  dsimp only [writeComplete]
  rw [Function.update_self, placed]

end Ydb
