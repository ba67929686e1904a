import Ydb.Timers

/-!
# The queue of timers

The queue and the free list are chains of different blocks, which together with
the block whose handler is running are all blocks. Adding and removing a timer
keep the queue sorted, with one entry for each timer, and do not touch the rest
of the package.
-/

namespace Ydb

open Lib

/-- The timer behind another. -/
def TimerState.nextOf (s : TimerState) (a : Nat) : Option Nat := (s.heap a).next

/-- The entries of a queue are sorted, one for each timer, with the number of safe ones
counted, and none is of a timer that was dispatched. -/
structure TimerState.Entries (s : TimerState) (queue : List Nat) : Prop where
  sorted : queue.Pairwise fun a b => (s.heap a).expir_time ≤ (s.heap b).expir_time
  tids : (queue.map fun a => (s.heap a).tid).Nodup
  safe_count : s.safe_timer_cnt = (queue.countP fun a => (s.heap a).safe : Nat)
  once : ((queue.map fun a => (s.heap a).started) ++ s.dispatched.map Dispatch.started).Nodup
  started : ∀ a ∈ queue, (s.heap a).started ≤ s.starts

/-- The queue, the free list and the blocks that are in hand. -/
structure TimerState.Ok (s : TimerState) (queue free busy : List Nat) : Prop where
  queue_chain : Chain s.nextOf s.timeroot queue
  free_chain : Chain s.nextOf s.timefree free
  blocks : (queue ++ (free ++ busy)).Perm (List.range s.allocated)
  free_count : s.num_timers_free = free.length
  entries : s.Entries queue
  dispatched_started : ∀ d ∈ s.dispatched, d.started ≤ s.starts
  punctual : ∀ d ∈ s.dispatched, d.expir_time ≤ d.time
  armed : s.timer_active = true → ∃ t, s.sys_timer = some t ∧ t.read ≤ t.set ∧
    t.read + t.it_value = s.sys_timer_at

/-- A block keeps what it says about its timer. -/
def GtTimer.SameTimer (t t' : GtTimer) : Prop :=
  t'.expir_time = t.expir_time ∧ t'.tid = t.tid ∧ t'.safe = t.safe ∧ t'.started = t.started

theorem GtTimer.SameTimer.refl (t : GtTimer) : t.SameTimer t := ⟨rfl, rfl, rfl, rfl⟩

theorem GtTimer.SameTimer.of_eq {t t' : GtTimer} (same : t' = t) : t.SameTimer t' := same ▸ .refl t

theorem GtTimer.SameTimer.trans {t t' t'' : GtTimer} (first : t.SameTimer t')
    (second : t'.SameTimer t'') : t.SameTimer t'' := by
  obtain ⟨e, i, s, n⟩ := first
  obtain ⟨e', i', s', n'⟩ := second
  exact ⟨e'.trans e, i'.trans i, s'.trans s, n'.trans n⟩

theorem TimerState.Entries.congr {s s' : TimerState} {queue : List Nat} (entries : s.Entries queue)
    (same : ∀ a ∈ queue, (s.heap a).SameTimer (s'.heap a))
    (count : s'.safe_timer_cnt = s.safe_timer_cnt) (dispatched : s'.dispatched = s.dispatched)
    (starts : s.starts ≤ s'.starts) : s'.Entries queue where
  sorted := by
    apply entries.sorted.imp_of_mem
    intro a b aMember bMember ordered
    rw [(same a aMember).1, (same b bMember).1]
    exact ordered
  tids := by
    rw [List.map_congr_left fun a member => (same a member).2.1]
    exact entries.tids
  safe_count := by
    rw [count, entries.safe_count]
    congr 1
    apply List.countP_congr
    intro a member
    rw [(same a member).2.2.1]
  once := by
    rw [List.map_congr_left fun a member => (same a member).2.2.2, dispatched]
    exact entries.once
  started := by
    intro a member
    rw [(same a member).2.2.2]
    exact Nat.le_trans (entries.started a member) starts

/-! ## Searching -/

/-- The search ends at the first block that fits. -/
theorem searchBlocks_spec {heap : Nat → GtTimer} (p : GtTimer → Bool) {rest : List Nat}
    (before : List Nat) {start : Option Nat} {rounds : Nat}
    (chain : Chain (fun a => (heap a).next) start rest) (enough : rest.length < rounds) :
    (∃ front a back, rest = front ++ a :: back ∧ p (heap a) = true ∧
      (∀ c ∈ front, p (heap c) = false) ∧
      searchBlocks heap p rounds before.getLast? start =
        some (some a, (before ++ front).getLast?)) ∨
    ((∀ c ∈ rest, p (heap c) = false) ∧
      searchBlocks heap p rounds before.getLast? start = some (none, (before ++ rest).getLast?)) := by
  induction rest generalizing before start rounds with
  | nil =>
    obtain ⟨rounds, rfl⟩ := Nat.exists_eq_succ_of_ne_zero (Nat.ne_of_gt enough)
    right
    obtain rfl : start = none := chain
    exact ⟨nofun, by rw [searchBlocks, List.append_nil]⟩
  | cons c rest ih =>
    obtain ⟨rounds, rfl⟩ := Nat.exists_eq_succ_of_ne_zero (Nat.ne_of_gt (Nat.zero_lt_of_lt enough))
    obtain ⟨rfl, tail⟩ := chain
    rw [searchBlocks]
    by_cases here : p (heap c) = true
    · left
      refine ⟨[], c, rest, rfl, here, nofun, ?_⟩
      rw [if_pos here, List.append_nil]
    · rw [if_neg here]
      rw [Bool.not_eq_true] at here
      have last : (before ++ [c]).getLast? = some c := by simp
      have shorter : rest.length < rounds := Nat.lt_of_succ_lt_succ enough
      rcases ih (before ++ [c]) tail shorter with
        ⟨front, a, back, rfl, found, others, result⟩ | ⟨others, result⟩
      · left
        refine ⟨c :: front, a, back, rfl, found, ?_, ?_⟩
        · intro d member
          rcases List.mem_cons.mp member with rfl | later
          · exact here
          · exact others d later
        · rw [last] at result
          rw [result, List.append_assoc, List.singleton_append]
      · right
        constructor
        · intro d member
          rcases List.mem_cons.mp member with rfl | later
          · exact here
          · exact others d later
        · rw [last] at result
          rw [result, List.append_assoc, List.singleton_append]

/-! ## Blocks -/

namespace TimerState

variable (s : TimerState) (a : Nat) (f : GtTimer → GtTimer)

theorem modify_heap_self : (s.modify a f).heap a = f (s.heap a) := Function.update_self ..

theorem modify_heap_of_ne {b : Nat} (other : b ≠ a) : (s.modify a f).heap b = s.heap b :=
  Function.update_of_ne other ..

/-- Assign a pointer. -/
def setNext (target : Option Nat) : TimerState := s.modify a fun t => { t with next := target }

theorem setNext_nextOf (target : Option Nat) :
    (s.setNext a target).nextOf = Function.update s.nextOf a target := by
  funext b
  by_cases here : b = a
  · rw [here, Function.update_self, nextOf, setNext, modify_heap_self]
  · rw [Function.update_of_ne here, nextOf, setNext, modify_heap_of_ne _ _ _ here, nextOf]

theorem setNext_sameTimer (target : Option Nat) (b : Nat) :
    (s.heap b).SameTimer ((s.setNext a target).heap b) := by
  by_cases here : b = a
  · rw [here, setNext, modify_heap_self]
    exact .refl _
  · rw [setNext, modify_heap_of_ne _ _ _ here]
    exact .refl _

theorem link_nextOf (before target : Option Nat) :
    (s.link before target).nextOf = relinkNext s.nextOf before target := by
  cases before with
  | none => rfl
  | some p => exact s.setNext_nextOf p target

theorem link_timeroot (before target : Option Nat) :
    (s.link before target).timeroot = relinkRoot s.timeroot before target := by
  cases before <;> rfl

theorem link_sameTimer (before target : Option Nat) (b : Nat) :
    (s.heap b).SameTimer ((s.link before target).heap b) := by
  cases before with
  | none => exact .refl _
  | some p => exact s.setNext_sameTimer p target b

/-- Nothing but the queue's pointers changes. -/
theorem link_eq (before target : Option Nat) :
    s.link before target = { s with
      heap := (s.link before target).heap
      timeroot := (s.link before target).timeroot } := by
  cases before <;> rfl

end TimerState

theorem relinkNext_of_ne {next : Nat → Option Nat} {before target : Option Nat} {a : Nat}
    (other : before ≠ some a) : relinkNext next before target a = next a := by
  cases before with
  | none => rfl
  | some p =>
    apply Function.update_of_ne
    rintro rfl
    exact other rfl

theorem getLast?_ne_of_not_mem {as : List Nat} {a : Nat} (absent : a ∉ as) :
    as.getLast? ≠ some a := by
  intro last
  exact absent (List.mem_of_getLast? last)

/-! ## Moving blocks -/

section Moving

variable {s : TimerState} {queue free busy : List Nat}

namespace TimerState.Ok

theorem nodup (ok : s.Ok queue free busy) : (queue ++ (free ++ busy)).Nodup :=
  ok.blocks.nodup_iff.mpr List.nodup_range

theorem queue_nodup (ok : s.Ok queue free busy) : queue.Nodup := (List.nodup_append.mp ok.nodup).1

theorem free_nodup (ok : s.Ok queue free busy) : free.Nodup :=
  (List.nodup_append.mp (List.nodup_append.mp ok.nodup).2.1).1

theorem not_free (ok : s.Ok queue free busy) {a : Nat} (member : a ∈ queue) : a ∉ free := by
  intro other
  exact (List.nodup_append.mp ok.nodup).2.2 a member a (List.mem_append_left _ other) rfl

theorem busy_not_queued (ok : s.Ok queue free busy) {a : Nat} (member : a ∈ busy) :
    a ∉ queue := by
  intro other
  exact (List.nodup_append.mp ok.nodup).2.2 a other a (List.mem_append_right _ member) rfl

theorem busy_not_free (ok : s.Ok queue free busy) {a : Nat} (member : a ∈ busy) : a ∉ free := by
  intro other
  exact (List.nodup_append.mp (List.nodup_append.mp ok.nodup).2.1).2.2 a other a member rfl

theorem queue_length (ok : s.Ok queue free busy) : queue.length < s.allocated + 1 := by
  have total := ok.blocks.length_eq
  rw [List.length_append, List.length_range] at total
  omega

theorem free_length (ok : s.Ok queue free busy) : free.length < s.allocated + 1 := by
  have total := ok.blocks.length_eq
  rw [List.length_append, List.length_append, List.length_range] at total
  omega

/-- Take an entry out of the queue. -/
theorem unlink {front back : List Nat} {a : Nat} (ok : s.Ok (front ++ a :: back) free busy) :
    TimerState.Ok { s.link front.getLast? (s.heap a).next with
      safe_timer_cnt := if (s.heap a).safe then s.safe_timer_cnt - 1 else s.safe_timer_cnt }
      (front ++ back) free (a :: busy) := by
  have kept := s.link_sameTimer front.getLast? (s.heap a).next
  have rest := s.link_eq front.getLast? (s.heap a).next
  have fewer : (front ++ back).Sublist (front ++ a :: back) :=
    List.Sublist.append_left (List.sublist_cons_self a back) front
  have old : TimerState.Entries { s with safe_timer_cnt :=
      if (s.heap a).safe then s.safe_timer_cnt - 1 else s.safe_timer_cnt } (front ++ back) := by
    refine ⟨ok.entries.sorted.sublist fewer, ok.entries.tids.sublist (fewer.map _), ?_, ?_, ?_⟩
    · have counted := ok.entries.safe_count
      rw [List.countP_append, List.countP_cons] at counted
      rw [List.countP_append]
      cases isSafe : (s.heap a).safe <;> simp [isSafe] at counted ⊢ <;> omega
    · exact ok.entries.once.sublist (List.Sublist.append_right (fewer.map _) _)
    · intro b member
      exact ok.entries.started b (fewer.subset member)
  refine ⟨?_, ?_, ?_, ?_, ?_, ?_, ?_, ?_⟩
  · have unlinked := ok.queue_chain.unlink ok.queue_nodup
    rw [show s.nextOf a = (s.heap a).next from rfl, ← s.link_nextOf, ← s.link_timeroot] at unlinked
    exact unlinked
  · have chain : Chain (s.link front.getLast? (s.heap a).next).nextOf s.timefree free := by
      rw [s.link_nextOf]
      apply ok.free_chain.congr
      intro c member
      apply relinkNext_of_ne
      apply getLast?_ne_of_not_mem
      intro inFront
      exact ok.not_free (List.mem_append_left _ inFront) member
    rw [rest]
    exact chain
  · rw [rest]
    apply List.Perm.trans _ ok.blocks
    rw [List.append_assoc, List.append_assoc, List.cons_append]
    apply List.Perm.append_left
    rw [← List.append_assoc, ← List.append_assoc]
    exact List.perm_middle
  · rw [rest]
    exact ok.free_count
  · apply old.congr
    · intro b _
      exact kept b
    · rfl
    · rw [rest]
    · apply Nat.le_of_eq
      rw [rest]
  · rw [rest]
    exact ok.dispatched_started
  · rw [rest]
    exact ok.punctual
  · rw [rest]
    exact ok.armed

/-- Put a block in hand on the free list. -/
theorem release {a : Nat} (ok : s.Ok queue free (a :: busy)) :
    (s.release a).Ok queue (a :: free) busy := by
  have notQueued := ok.busy_not_queued List.mem_cons_self
  have notFree := ok.busy_not_free List.mem_cons_self
  have next : (s.release a).nextOf = Function.update s.nextOf a s.timefree :=
    s.setNext_nextOf a s.timefree
  have others : ∀ b, b ≠ a → (s.release a).nextOf b = s.nextOf b := by
    intro b other
    rw [next, Function.update_of_ne other]
  refine ⟨?_, ?_, ?_, ?_, ?_, ok.dispatched_started, ok.punctual, ok.armed⟩
  · apply ok.queue_chain.congr
    intro b member
    apply others
    rintro rfl
    exact notQueued member
  · refine ⟨rfl, ?_⟩
    rw [next, Function.update_self, ← next]
    apply ok.free_chain.congr
    intro b member
    apply others
    rintro rfl
    exact notFree member
  · apply List.Perm.trans _ ok.blocks
    apply List.Perm.append_left
    exact List.perm_middle.symm
  · show s.num_timers_free + 1 = _
    rw [ok.free_count, List.length_cons]
    rfl
  · apply ok.entries.congr
    · intro b _
      exact s.setNext_sameTimer a s.timefree b
    · rfl
    · rfl
    · exact Nat.le_refl _

/-- Put a block in hand in the queue, before the entries that do not expire earlier. -/
theorem insert {front back : List Nat} {n : Nat} (ok : s.Ok (front ++ back) free (n :: busy))
    (before : ∀ a ∈ front, (s.heap a).expir_time ≤ (s.heap n).expir_time)
    (after : ∀ a ∈ back, (s.heap n).expir_time ≤ (s.heap a).expir_time)
    (newTid : ∀ a ∈ front ++ back, (s.heap a).tid ≠ (s.heap n).tid)
    (newStart : ∀ a ∈ front ++ back, (s.heap a).started ≠ (s.heap n).started)
    (notDispatched : ∀ d ∈ s.dispatched, d.started ≠ (s.heap n).started)
    (inHistory : (s.heap n).started ≤ s.starts) :
    TimerState.Ok { (s.setNext n back.head?).link front.getLast? (some n) with
      safe_timer_cnt := if (s.heap n).safe then s.safe_timer_cnt + 1 else s.safe_timer_cnt }
      (front ++ n :: back) free busy := by
  have notQueued := ok.busy_not_queued List.mem_cons_self
  have notFree := ok.busy_not_free List.mem_cons_self
  have kept : ∀ b, (s.heap b).SameTimer
      (((s.setNext n back.head?).link front.getLast? (some n)).heap b) := fun b =>
    (s.setNext_sameTimer n back.head? b).trans
      ((s.setNext n back.head?).link_sameTimer front.getLast? (some n) b)
  have rest := (s.setNext n back.head?).link_eq front.getLast? (some n)
  have nextOthers : ∀ b, b ≠ n → (s.setNext n back.head?).nextOf b = s.nextOf b := by
    intro b other
    rw [s.setNext_nextOf, Function.update_of_ne other]
  have notNew : ∀ b ∈ front ++ back, b ≠ n := by
    rintro b member rfl
    exact notQueued member
  have old : TimerState.Entries { s with safe_timer_cnt :=
      if (s.heap n).safe then s.safe_timer_cnt + 1 else s.safe_timer_cnt } (front ++ n :: back) := by
    have entries := ok.entries
    refine ⟨?_, ?_, ?_, ?_, ?_⟩
    · obtain ⟨frontSorted, backSorted, across⟩ := List.pairwise_append.mp entries.sorted
      apply List.pairwise_append.mpr
      refine ⟨frontSorted, List.pairwise_cons.mpr ⟨after, backSorted⟩, ?_⟩
      intro a aMember b bMember
      rcases List.mem_cons.mp bMember with rfl | inBack
      · exact before a aMember
      · exact across a aMember b inBack
    · rw [List.map_append, List.map_cons]
      apply List.perm_middle.nodup_iff.mpr
      rw [← List.map_append]
      apply List.nodup_cons.mpr
      refine ⟨?_, entries.tids⟩
      intro member
      obtain ⟨a, aMember, same⟩ := List.mem_map.mp member
      exact newTid a aMember same
    · have counted := entries.safe_count
      rw [List.countP_append] at counted
      rw [List.countP_append, List.countP_cons]
      cases (s.heap n).safe <;> simp at counted ⊢ <;> omega
    · rw [List.map_append, List.map_cons, List.append_assoc, List.cons_append]
      apply List.perm_middle.nodup_iff.mpr
      rw [← List.append_assoc, ← List.map_append]
      apply List.nodup_cons.mpr
      refine ⟨?_, entries.once⟩
      intro member
      rcases List.mem_append.mp member with inQueue | inHistory
      · obtain ⟨a, aMember, same⟩ := List.mem_map.mp inQueue
        exact newStart a aMember same
      · obtain ⟨d, dMember, same⟩ := List.mem_map.mp inHistory
        exact notDispatched d dMember same
    · intro a member
      rcases List.mem_append.mp member with inFront | inBack
      · exact entries.started a (List.mem_append_left _ inFront)
      · rcases List.mem_cons.mp inBack with rfl | inBack
        · exact inHistory
        · exact entries.started a (List.mem_append_right _ inBack)
  refine ⟨?_, ?_, ?_, ?_, ?_, ?_, ?_, ?_⟩
  · have chain : Chain (s.setNext n back.head?).nextOf (s.setNext n back.head?).timeroot
        (front ++ back) := by
      apply ok.queue_chain.congr
      intro b member
      exact nextOthers b (notNew b member)
    have linked : (s.setNext n back.head?).nextOf n = back.head? := by
      rw [s.setNext_nextOf, Function.update_self]
    have inserted := chain.insert ok.queue_nodup notQueued linked
    rw [← (s.setNext n back.head?).link_nextOf, ← (s.setNext n back.head?).link_timeroot]
      at inserted
    exact inserted
  · have chain : Chain ((s.setNext n back.head?).link front.getLast? (some n)).nextOf s.timefree
        free := by
      rw [TimerState.link_nextOf]
      apply ok.free_chain.congr
      intro c member
      rw [relinkNext_of_ne]
      · apply nextOthers
        rintro rfl
        exact notFree member
      · apply getLast?_ne_of_not_mem
        intro inFront
        exact ok.not_free (List.mem_append_left _ inFront) member
    rw [rest]
    exact chain
  · rw [rest]
    apply List.Perm.trans _ ok.blocks
    rw [List.append_assoc, List.append_assoc, List.cons_append]
    apply List.Perm.append_left
    rw [← List.append_assoc, ← List.append_assoc]
    exact List.perm_middle.symm
  · rw [rest]
    exact ok.free_count
  · apply old.congr
    · intro b _
      exact kept b
    · rfl
    · rw [rest]
      rfl
    · rw [rest]
      exact Nat.le_refl _
  · rw [rest]
    exact ok.dispatched_started
  · rw [rest]
    exact ok.punctual
  · rw [rest]
    exact ok.armed

end TimerState.Ok

/-! ## The routines -/

/-- The part of the state that adding and removing timers does not change. -/
def TimerState.SameRest (s s' : TimerState) : Prop :=
  s' = { s with
    heap := s'.heap
    timeroot := s'.timeroot
    timefree := s'.timefree
    num_timers_free := s'.num_timers_free
    allocated := s'.allocated
    safe_timer_cnt := s'.safe_timer_cnt
    deferred_timers_check_needed := s'.deferred_timers_check_needed
    starts := s'.starts }

namespace TimerState.SameRest

variable {s s' : TimerState} (same : s.SameRest s')

include same

theorem clock : s'.clock = s.clock := by rw [same]

theorem stack : s'.timer_stack_count = s.timer_stack_count := by rw [same]

theorem inHandler : s'.timer_in_handler = s.timer_in_handler := by rw [same]

theorem active : s'.timer_active = s.timer_active := by rw [same]

theorem sys_timer_at : s'.sys_timer_at = s.sys_timer_at := by rw [same]

end TimerState.SameRest

theorem TimerState.SameRest.trans {s s' s'' : TimerState} (first : s.SameRest s')
    (second : s'.SameRest s'') : s.SameRest s'' := by
  rw [TimerState.SameRest] at *
  rw [second, first]

/-- A timer that was removed, or was not there. -/
structure Removed (s : TimerState) (queue : List Nat) (tid : TID) (s' : TimerState)
    (queue' : List Nat) : Prop where
  rest : s.SameRest s'
  subset : ∀ a ∈ queue', a ∈ queue
  same : ∀ a, (s.heap a).SameTimer (s'.heap a)
  kept : ∀ a ∈ queue, (s.heap a).tid ≠ tid → a ∈ queue'
  gone : ∀ a ∈ queue', (s'.heap a).tid ≠ tid
  deferred : queue' ≠ [] → s'.deferred_timers_check_needed = s.deferred_timers_check_needed

/-- A timer is taken out of the queue. -/
theorem remove_timer_spec (ok : s.Ok queue free busy) (tid : TID) :
    ∃ s' queue' free', remove_timer s tid = some s' ∧ s'.Ok queue' free' busy ∧
      Removed s queue tid s' queue' := by
  rw [remove_timer, TimerState.find, find_timer]
  rcases searchBlocks_spec (fun tc => tc.tid == tid) [] ok.queue_chain ok.queue_length with
    ⟨front, a, back, rfl, found, others, result⟩ | ⟨others, result⟩
  · rw [List.getLast?_nil] at result
    rw [result, List.nil_append]
    rw [beq_iff_eq] at found
    have unlinked := ok.unlink
    have isSafe : ((s.link front.getLast? (s.heap a).next).heap a).safe = (s.heap a).safe :=
      (s.link_sameTimer front.getLast? (s.heap a).next a).2.2.1
    have count : (s.link front.getLast? (s.heap a).next).safe_timer_cnt = s.safe_timer_cnt := by
      rw [s.link_eq]
    have deferred : (s.link front.getLast? (s.heap a).next).deferred_timers_check_needed =
        s.deferred_timers_check_needed := by rw [s.link_eq]
    have root : (s.link front.getLast? (s.heap a).next).timeroot = (front ++ back).head? :=
      unlinked.queue_chain.root_eq
    dsimp only
    rw [isSafe, count]
    refine ⟨_, front ++ back, a :: free, rfl,
      TimerState.Ok.release { unlinked with entries := { unlinked.entries with } }, ?_⟩
    have same : ∀ b, (s.heap b).SameTimer ((TimerState.release
        { s.link front.getLast? (s.heap a).next with
          deferred_timers_check_needed :=
            (s.link front.getLast? (s.heap a).next).deferred_timers_check_needed &&
              !(front.getLast?.isNone && (s.link front.getLast? (s.heap a).next).timeroot.isNone)
          safe_timer_cnt := if (s.heap a).safe then s.safe_timer_cnt - 1 else s.safe_timer_cnt }
        a).heap b) := fun b =>
      (s.link_sameTimer front.getLast? (s.heap a).next b).trans
        (TimerState.setNext_sameTimer _ a _ b)
    have tids := ok.entries.tids
    rw [List.map_append, List.map_cons] at tids
    have otherTids := (List.nodup_cons.mp (List.perm_middle.nodup_iff.mp tids)).1
    rw [← List.map_append, found] at otherTids
    refine ⟨?_, ?_, same, ?_, ?_, ?_⟩
    · rw [TimerState.SameRest, TimerState.release, TimerState.modify, s.link_eq]
    · intro b member
      exact (List.Sublist.append_left (List.sublist_cons_self a back) front).subset member
    · intro b member otherTid
      rcases List.mem_append.mp member with inFront | inBack
      · exact List.mem_append_left _ inFront
      · rcases List.mem_cons.mp inBack with rfl | inBack
        · exact absurd found otherTid
        · exact List.mem_append_right _ inBack
    · intro b member sameTid
      rw [(same b).2.1] at sameTid
      exact otherTids (List.mem_map.mpr ⟨b, member, sameTid⟩)
    · intro nonempty
      show (_ && _) = _
      rw [deferred, root]
      have notEmpty : (front ++ back).head?.isNone = false := by
        cases both : front ++ back with
        | nil => exact absurd both nonempty
        | cons => rfl
      rw [notEmpty, Bool.and_false, Bool.not_false, Bool.and_true]
  · rw [List.getLast?_nil] at result
    rw [result]
    refine ⟨s, queue, free, rfl, ok, rfl, fun _ => id, fun _ => .refl _, fun _ member _ => member,
      ?_, fun _ => rfl⟩
    intro a member
    have different := others a member
    rwa [beq_eq_false_iff_ne] at different

/-- A change of the free list: the entries of the queue stay. -/
structure Untouched (s : TimerState) (queue : List Nat) (s' : TimerState) : Prop where
  rest : s.SameRest s'
  same : ∀ a ∈ queue, (s.heap a).SameTimer (s'.heap a)
  deferred : s'.deferred_timers_check_needed = s.deferred_timers_check_needed
  starts : s'.starts = s.starts

/-- A block for a new timer. -/
theorem obtainBlock_spec (ok : s.Ok queue free busy) (hdata_len : Nat) :
    ∃ s' n free', obtainBlock s hdata_len = some (s', n) ∧ s'.Ok queue free' (n :: busy) ∧
      Untouched s queue s' := by
  rw [obtainBlock, findFree]
  rcases searchBlocks_spec (fun ntp => decide (hdata_len ≤ ntp.hd_len_max)) [] ok.free_chain
    ok.free_length with ⟨front, n, back, rfl, _, _, result⟩ | ⟨_, result⟩
  · rw [List.getLast?_nil, List.nil_append] at result
    have blocks : (queue ++ (front ++ back ++ n :: busy)).Perm (List.range s.allocated) := by
      apply List.Perm.trans _ ok.blocks
      apply List.Perm.append_left
      rw [List.append_assoc, List.append_assoc, List.cons_append]
      apply List.Perm.append_left
      exact List.perm_middle
    have count : s.num_timers_free - 1 = ((front ++ back).length : Nat) := by
      rw [ok.free_count, List.length_append, List.length_append, List.length_cons]
      omega
    have unlinked := ok.free_chain.unlink ok.free_nodup
    rw [result]
    cases last : front.getLast? with
    | none =>
      rw [last] at unlinked
      exact ⟨_, n, front ++ back, rfl,
        ⟨ok.queue_chain, unlinked, blocks, count, { ok.entries with }, ok.dispatched_started,
          ok.punctual, ok.armed⟩, rfl, fun _ _ => .refl _, rfl, rfl⟩
    | some lastntp =>
      rw [last] at unlinked
      have inFront : lastntp ∈ front := List.mem_of_getLast? last
      have same := s.setNext_sameTimer lastntp (s.heap n).next
      have next := s.setNext_nextOf lastntp (s.heap n).next
      refine ⟨_, n, front ++ back, rfl,
        ⟨?_, ?_, blocks, count, ?_, ok.dispatched_started, ok.punctual, ok.armed⟩, rfl,
        fun a _ => same a, rfl, rfl⟩
      · apply ok.queue_chain.congr
        intro a member
        show (s.setNext lastntp (s.heap n).next).nextOf a = _
        rw [next, Function.update_of_ne]
        rintro rfl
        exact ok.not_free member (List.mem_append_left _ inFront)
      · show Chain (s.setNext lastntp (s.heap n).next).nextOf s.timefree (front ++ back)
        rw [next]
        exact unlinked
      · apply ok.entries.congr
        · exact fun a _ => same a
        · rfl
        · rfl
        · exact Nat.le_refl _
  · rw [List.getLast?_nil, List.nil_append] at result
    rw [result]
    dsimp only
    have unknown : ∀ {a}, a ∈ queue ++ (free ++ busy) → a ≠ s.allocated := by
      rintro a member rfl
      exact Nat.lt_irrefl _ (List.mem_range.mp (ok.blocks.mem_iff.mp member))
    have heap : ∀ a, a ≠ s.allocated →
        (s.modify s.allocated fun t => { t with hd_len_max := hdata_len }).heap a = s.heap a :=
      fun a other => s.modify_heap_of_ne _ _ other
    refine ⟨_, s.allocated, free, rfl,
      ⟨?_, ?_, ?_, ok.free_count, ?_, ok.dispatched_started, ok.punctual, ok.armed⟩, rfl, ?_, rfl, rfl⟩
    · apply ok.queue_chain.congr
      intro a member
      exact congrArg GtTimer.next (heap a (unknown (List.mem_append_left _ member)))
    · apply ok.free_chain.congr
      intro a member
      exact congrArg GtTimer.next
        (heap a (unknown (List.mem_append_right _ (List.mem_append_left _ member))))
    · show List.Perm _ (List.range (s.allocated + 1))
      rw [List.range_succ]
      apply List.Perm.trans _ (List.Perm.append_right [s.allocated] ok.blocks)
      rw [List.append_assoc, List.append_assoc]
      apply List.Perm.append_left
      apply List.Perm.append_left
      exact (List.perm_append_singleton s.allocated busy).symm
    · apply ok.entries.congr
      · intro a member
        exact .of_eq (heap a (unknown (List.mem_append_left _ member)))
      · rfl
      · rfl
      · exact Nat.le_refl _
    · intro a member
      exact .of_eq (heap a (unknown (List.mem_append_left _ member)))

/-- A new block; the number of free blocks is brought up to date later. -/
theorem newBlock_ok {num : Int} (ok : { s with num_timers_free := num }.Ok queue free busy) :
    { s.newBlock with num_timers_free := num + 1 }.Ok queue (s.allocated :: free) busy := by
  have unknown : ∀ {a}, a ∈ queue ++ (free ++ busy) → a ≠ s.allocated := by
    rintro a member rfl
    exact Nat.lt_irrefl _ (List.mem_range.mp (ok.blocks.mem_iff.mp member))
  have heap : ∀ a, a ≠ s.allocated → s.newBlock.heap a = s.heap a :=
    fun a other => Function.update_of_ne other ..
  refine ⟨?_, ⟨rfl, ?_⟩, ?_, ?_, ?_, ok.dispatched_started, ok.punctual, ok.armed⟩
  · apply ok.queue_chain.congr
    intro a member
    exact congrArg GtTimer.next (heap a (unknown (List.mem_append_left _ member)))
  · have first : s.newBlock.nextOf s.allocated = s.timefree := by
      simp [TimerState.nextOf, TimerState.newBlock]
    show Chain s.newBlock.nextOf (s.newBlock.nextOf s.allocated) free
    rw [first]
    apply ok.free_chain.congr
    intro a member
    exact congrArg GtTimer.next
      (heap a (unknown (List.mem_append_right _ (List.mem_append_left _ member))))
  · show List.Perm _ (List.range (s.allocated + 1))
    rw [List.range_succ]
    apply List.Perm.trans _ (List.Perm.append_right [s.allocated] ok.blocks)
    rw [List.append_assoc]
    apply List.Perm.append_left
    exact (List.perm_append_singleton s.allocated (free ++ busy)).symm
  · show num + 1 = _
    rw [show num = free.length from ok.free_count]
    rfl
  · apply ok.entries.congr
    · intro a member
      exact .of_eq (heap a (unknown (List.mem_append_left _ member)))
    · rfl
    · rfl
    · exact Nat.le_refl _

theorem newBlock_untouched (known : ∀ a ∈ queue, a < s.allocated) :
    Untouched s queue s.newBlock := by
  refine ⟨rfl, ?_, rfl, rfl⟩
  intro a member
  apply GtTimer.SameTimer.of_eq
  apply Function.update_of_ne
  exact Nat.ne_of_lt (known a member)

theorem allocLoop_spec (count : Nat) {num : Int}
    (ok : { s with num_timers_free := num }.Ok queue free busy) :
    ∃ free', { allocLoop count s with num_timers_free := num + count }.Ok queue free' busy ∧
      Untouched s queue (allocLoop count s) ∧
      (allocLoop count s).num_timers_free = s.num_timers_free := by
  induction count generalizing s free num with
  | zero =>
    refine ⟨free, ?_, ⟨rfl, fun _ _ => .refl _, rfl, rfl⟩, rfl⟩
    rw [show num + ((0 : Nat) : Int) = num from Int.add_zero num]
    exact ok
  | succ count ih =>
    obtain ⟨free', ok', untouched, same⟩ := ih (newBlock_ok ok)
    have first : Untouched s queue s.newBlock := newBlock_untouched fun a member =>
      List.mem_range.mp (ok.blocks.mem_iff.mp (List.mem_append_left _ member))
    refine ⟨free', ?_, ⟨?_, ?_, untouched.deferred, untouched.starts⟩, same⟩
    · have total : num + 1 + (count : Int) = num + ((count + 1 : Nat) : Int) := by omega
      rw [total] at ok'
      exact ok'
    · exact first.rest.trans untouched.rest
    · intro a member
      exact (first.same a member).trans (untouched.same a member)

/-- A new block of timers is all free. -/
theorem gt_timers_alloc_spec (ok : s.Ok queue free busy) :
    ∃ free', (gt_timers_alloc s).Ok queue free' busy ∧ Untouched s queue (gt_timers_alloc s) := by
  have same : { s with num_timers_free := s.num_timers_free }.Ok queue free busy := ok
  obtain ⟨free', allocated, untouched, num⟩ := allocLoop_spec TIMER_BLOCK_SIZE same
  unfold gt_timers_alloc
  generalize allocLoop TIMER_BLOCK_SIZE s = t at allocated untouched num
  dsimp only
  rw [num]
  exact ⟨free', allocated, untouched.rest.trans rfl, untouched.same, untouched.deferred,
    untouched.starts⟩

/-- A timer that was added. -/
structure AddedTimer (s : TimerState) (queue : List Nat) (tid : TID) (expir_time : Nat)
    (s' : TimerState) (n : Nat) (queue' : List Nat) : Prop where
  rest : s.SameRest s'
  deferred : s'.deferred_timers_check_needed = s.deferred_timers_check_needed
  members : ∀ a, a ∈ queue' ↔ a = n ∨ a ∈ queue
  same : ∀ a ∈ queue, (s.heap a).SameTimer (s'.heap a)
  tid : (s'.heap n).tid = tid
  expir_time : (s'.heap n).expir_time = expir_time

/-- A timer is put where it expires. -/
theorem add_timer_spec (ok : s.Ok queue free busy) (atp : Nat) {tid : TID}
    (newTid : ∀ a ∈ queue, (s.heap a).tid ≠ tid) (time_to_expir : Nat)
    (handler : Option TimerHandler) (hdata : List UInt8) (safe_timer : Bool) :
    ∃ s' n queue' free', add_timer s atp tid time_to_expir handler hdata safe_timer = some (s', n) ∧
      s'.Ok queue' free' busy ∧ AddedTimer s queue tid (atp + time_to_expir) s' n queue' := by
  obtain ⟨t, n, free', obtained, okT, untouched⟩ := obtainBlock_spec ok hdata.length
  have notQueued := okT.busy_not_queued List.mem_cons_self
  have notFree := okT.busy_not_free List.mem_cons_self
  -- The block is filled in while it is in hand.
  let filled : GtTimer := { t.heap n with
    tid := tid
    handler := handler
    safe := safe_timer
    block_int := INTRPT_OK_TO_INTERRUPT
    hd_data := hdata
    expir_time := atp + time_to_expir
    start_time := atp
    started := t.starts + 1 }
  let u : TimerState := { t with
    starts := t.starts + 1
    heap := Function.update t.heap n filled }
  have heapN : u.heap n = filled := Function.update_self ..
  have heap : ∀ a, a ≠ n → u.heap a = t.heap a := fun a other => Function.update_of_ne other ..
  have other : ∀ {a}, a ∈ queue → a ≠ n := by
    rintro a member rfl
    exact notQueued member
  have okU : u.Ok queue free' (n :: busy) := by
    refine ⟨?_, ?_, okT.blocks, okT.free_count, ?_, ?_, okT.punctual, okT.armed⟩
    · apply okT.queue_chain.congr
      intro a member
      exact congrArg GtTimer.next (heap a (other member))
    · apply okT.free_chain.congr
      intro a member
      apply congrArg GtTimer.next (heap a _)
      rintro rfl
      exact notFree member
    · apply okT.entries.congr
      · exact fun a member => .of_eq (heap a (other member))
      · rfl
      · rfl
      · exact Nat.le_succ _
    · intro d member
      exact Nat.le_succ_of_le (okT.dispatched_started d member)
  -- The place is behind the entries that expire earlier.
  have place : ∃ front back, queue = front ++ back ∧
      (∀ a ∈ front, (u.heap a).expir_time ≤ atp + time_to_expir) ∧
      (∀ a ∈ back, atp + time_to_expir ≤ (u.heap a).expir_time) ∧
      findPlace u.heap (atp + time_to_expir) (u.allocated + 1) none u.timeroot =
        some (back.head?, front.getLast?) := by
    rw [findPlace]
    rcases searchBlocks_spec (fun tp => decide (atp + time_to_expir ≤ tp.expir_time)) []
      okU.queue_chain okU.queue_length with ⟨front, a, back, whole, found, others, result⟩ |
        ⟨others, result⟩
    · refine ⟨front, a :: back, whole, ?_, ?_, ?_⟩
      · intro b member
        have earlier := others b member
        rw [decide_eq_false_iff_not] at earlier
        exact Nat.le_of_lt (Nat.lt_of_not_le earlier)
      · rw [decide_eq_true_eq] at found
        have sorted := okU.entries.sorted
        rw [whole] at sorted
        have behind := (List.pairwise_cons.mp (List.pairwise_append.mp sorted).2.1).1
        intro b member
        rcases List.mem_cons.mp member with rfl | later
        · exact found
        · exact Nat.le_trans found (behind b later)
      · rw [List.getLast?_nil, List.nil_append] at result
        exact result
    · refine ⟨queue, [], (List.append_nil queue).symm, ?_, nofun, ?_⟩
      · intro b member
        have earlier := others b member
        rw [decide_eq_false_iff_not] at earlier
        exact Nat.le_of_lt (Nat.lt_of_not_le earlier)
      · rw [List.getLast?_nil, List.nil_append] at result
        exact result
  obtain ⟨front, back, rfl, before, after, found⟩ := place
  have kept : ∀ a ∈ front ++ back, (s.heap a).SameTimer (u.heap a) := by
    intro a member
    rw [heap a (other member)]
    exact untouched.same a member
  have starts := untouched.starts
  have inserted := okU.insert (n := n)
    (by rw [heapN]; exact before) (by rw [heapN]; exact after)
    (by
      intro a member
      rw [heapN, (kept a member).2.1]
      exact newTid a member)
    (by
      intro a member
      rw [heapN, (kept a member).2.2.2]
      have known := ok.entries.started a member
      show _ ≠ t.starts + 1
      omega)
    (by
      intro d member
      rw [heapN]
      have known := okT.dispatched_started d member
      show _ ≠ t.starts + 1
      omega)
    (Nat.le_of_eq (by rw [heapN]))
  rw [heapN] at inserted
  refine ⟨_, n, front ++ n :: back, free', ?_, inserted, ?_⟩
  · rw [add_timer, obtained]
    show Option.bind (findPlace u.heap (atp + time_to_expir) (u.allocated + 1) none u.timeroot) _ = _
    rw [found]
    cases front.getLast? <;> rfl
  · have same : ∀ a, (u.heap a).SameTimer
        (((u.setNext n back.head?).link front.getLast? (some n)).heap a) := fun a =>
      (u.setNext_sameTimer n back.head? a).trans
        ((u.setNext n back.head?).link_sameTimer front.getLast? (some n) a)
    refine ⟨untouched.rest.trans ?_, ?_, ?_, ?_, ?_, ?_⟩
    · cases front.getLast? <;> rfl
    · rw [← untouched.deferred]
      cases front.getLast? <;> rfl
    · intro a
      simp only [List.mem_append, List.mem_cons]
      tauto
    · intro a member
      exact (kept a member).trans (same a)
    · rw [(same n).2.1, heapN]
    · rw [(same n).1, heapN]

end Moving

end Ydb
