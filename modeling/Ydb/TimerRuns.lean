import Mathlib.Logic.Relation
import Ydb.TimerQueue

/-!
# Runs of the timer package

Between calls of the package, a process whose queue is not empty will look at it
again: a flag says so, or the system timer is armed for the first timer that is
not expired. Handlers change the queue while `timer_handler` walks along it; the
entry it has come to stays, because handlers leave expired timers alone.
-/

namespace Ydb

open Lib

variable {s : TimerState} {queue free busy : List Nat}

/-- The process will look at the queue again. -/
def TimerState.Wakes (s : TimerState) (queue : List Nat) : Prop :=
  queue ≠ [] → s.deferred_timers_check_needed = true ∨
    (s.timer_active = true ∧ ∀ a ∈ queue, s.clock < (s.heap a).expir_time →
      s.sys_timer_at ≤ (s.heap a).expir_time)

/-- The state at the end of a routine that was called `stack` deep, at a time not before
`start`. -/
def TimerState.Settled (s : TimerState) (stack start : Nat) : Prop :=
  ∃ queue free, s.Ok queue free [] ∧ s.Wakes queue ∧ s.timer_stack_count = stack ∧
    s.timer_in_handler = false ∧ start ≤ s.clock

/-- What handlers leave alone: the entries of expired timers. -/
structure Carried (s : TimerState) (queue : List Nat) (s' : TimerState) (queue' : List Nat) :
    Prop where
  clock : s.clock ≤ s'.clock
  stack : s'.timer_stack_count = s.timer_stack_count
  inHandler : s'.timer_in_handler = s.timer_in_handler
  kept : ∀ a ∈ queue, (s.heap a).expir_time ≤ s.clock →
    a ∈ queue' ∧ (s'.heap a).expir_time = (s.heap a).expir_time

theorem Carried.trans {s' s'' : TimerState} {queue' queue'' : List Nat}
    (first : Carried s queue s' queue') (second : Carried s' queue' s'' queue'') :
    Carried s queue s'' queue'' where
  clock := Nat.le_trans first.clock second.clock
  stack := second.stack.trans first.stack
  inHandler := second.inHandler.trans first.inHandler
  kept a member expired := by
    obtain ⟨member', same⟩ := first.kept a member expired
    obtain ⟨member'', same'⟩ := second.kept a member'
      (by rw [same]; exact Nat.le_trans expired first.clock)
    exact ⟨member'', same'.trans same⟩

/-! ## Starting and cancelling -/

/-- The queue after a timer was put in the place of an old one. -/
structure Started (s : TimerState) (queue : List Nat) (tid : TID) (expir_time : Nat)
    (s' : TimerState) (n : Nat) (queue' : List Nat) : Prop where
  rest : s.SameRest s'
  kept : ∀ a ∈ queue, (s.heap a).tid ≠ tid →
    a ∈ queue' ∧ (s'.heap a).expir_time = (s.heap a).expir_time
  origin : ∀ a ∈ queue', a = n ∨ (a ∈ queue ∧ (s'.heap a).expir_time = (s.heap a).expir_time)
  tid : (s'.heap n).tid = tid
  expir_time : (s'.heap n).expir_time = expir_time
  deferred : (∃ a ∈ queue', a ≠ n) →
    s'.deferred_timers_check_needed = s.deferred_timers_check_needed

section Calls

variable {timerHandler : Bool → TimerState → Option TimerState} {env : TimerEnv}

/-- A start, with an earlier one cancelled. -/
theorem start_timer_int_spec (ok : s.Ok queue free busy) (tid : TID) (time_to_expir : Nat)
    (handler : Option TimerHandler) (hdata : List UInt8) (safe_timer : Bool) :
    ∃ s' n queue' free', s'.Ok queue' free' busy ∧
      Started s queue tid (s.clock + time_to_expir) s' n queue' ∧
      start_timer_int timerHandler env tid time_to_expir handler hdata safe_timer s =
        if s'.timeroot.map (fun a => (s'.heap a).tid) = some tid ∨ s'.timer_active = false ∨
            (s'.heap n).expir_time < s'.sys_timer_at then
          start_first_timer timerHandler env s.clock false s'
        else some s' := by
  obtain ⟨s₁, queue₁, free₁, done₁, ok₁, removed⟩ := remove_timer_spec ok tid
  -- More blocks may be allocated before the timer is added.
  have alloc : ∃ s₂ free₂, (if s₁.num_timers_free < GT_TIMER_EXPAND_TRIGGER ∧
      s₁.timer_stack_count < 1 then gt_timers_alloc s₁ else s₁) = s₂ ∧ s₂.Ok queue₁ free₂ busy ∧
      Untouched s₁ queue₁ s₂ := by
    split
    · obtain ⟨free₂, ok₂, untouched⟩ := gt_timers_alloc_spec ok₁
      exact ⟨_, free₂, rfl, ok₂, untouched⟩
    · exact ⟨s₁, free₁, rfl, ok₁, rfl, fun _ _ => .refl _, rfl, rfl⟩
  obtain ⟨s₂, free₂, done₂, ok₂, untouched⟩ := alloc
  have newTid : ∀ a ∈ queue₁, (s₂.heap a).tid ≠ tid := by
    intro a member
    rw [(untouched.same a member).2.1]
    exact removed.gone a member
  obtain ⟨s₃, n, queue₃, free₃, done₃, ok₃, added⟩ :=
    add_timer_spec ok₂ s.clock newTid time_to_expir handler hdata safe_timer
  have expiry : ∀ a ∈ queue₁, (s₃.heap a).expir_time = (s.heap a).expir_time := by
    intro a member
    rw [(added.same a member).1, (untouched.same a member).1, (removed.same a).1]
  refine ⟨s₃, n, queue₃, free₃, ok₃, ⟨?_, ?_, ?_, added.tid, added.expir_time, ?_⟩, ?_⟩
  · exact (removed.rest.trans untouched.rest).trans added.rest
  · intro a member otherTid
    have still := removed.kept a member otherTid
    exact ⟨(added.members a).mpr (.inr still), expiry a still⟩
  · intro a member
    rcases (added.members a).mp member with new | old
    · exact .inl new
    · exact .inr ⟨removed.subset a old, expiry a old⟩
  · rintro ⟨a, member, other⟩
    rcases (added.members a).mp member with new | old
    · exact absurd new other
    · rw [added.deferred, untouched.deferred, removed.deferred (List.ne_nil_of_mem old)]
  · simp only [start_timer_int, done₁, done₂, done₃, Option.bind_eq_bind, Option.bind_some]

theorem start_first_timer_inHandler (inHandler : s.timer_in_handler = true) (curr_time : Nat)
    (is_os_signal_handler : Bool) :
    start_first_timer timerHandler env curr_time is_os_signal_handler s =
      some { s with deferred_timers_check_needed := false } := by
  rw [start_first_timer]
  exact if_pos (.inr inHandler)

theorem TimerState.Ok.setDeferred (ok : s.Ok queue free busy) (deferred : Bool) :
    { s with deferred_timers_check_needed := deferred }.Ok queue free busy :=
  { ok with entries := { ok.entries with } }

/-- The timer is not in the queue, or not expired. -/
theorem not_expired (ok : s.Ok queue free busy) {tid : TID} (notExpired : s.expired tid = false)
    {a : Nat} (member : a ∈ queue) (expired : (s.heap a).expir_time ≤ s.clock) :
    (s.heap a).tid ≠ tid := by
  intro sameTid
  rw [TimerState.expired, TimerState.find, find_timer] at notExpired
  rcases searchBlocks_spec (fun tc => tc.tid == tid) [] ok.queue_chain ok.queue_length with
    ⟨front, c, back, whole, found, _, result⟩ | ⟨others, _⟩
  · rw [List.getLast?_nil] at result
    rw [result] at notExpired
    have tids := ok.entries.tids
    have inQueue : c ∈ queue := by
      rw [whole]
      exact List.mem_append_right _ List.mem_cons_self
    have same : a = c := by
      rw [beq_iff_eq] at found
      exact List.inj_on_of_nodup_map tids member inQueue (sameTid.trans found.symm)
    rw [same] at expired
    simp [expired] at notExpired
  · have different := others a member
    rw [sameTid, beq_self_eq_true] at different
    cases different

/-- A timer started inside a handler leaves the queue in order. -/
theorem start_timer_inHandler (ok : s.Ok queue free busy) (inHandler : s.timer_in_handler = true)
    {tid : TID} (notExpired : s.expired tid = false) {time_to_expir : Nat}
    {handler : Option TimerHandler} {hdata : List UInt8} {s' : TimerState}
    (done : start_timer timerHandler env tid time_to_expir handler hdata s = some s') :
    ∃ queue' free', s'.Ok queue' free' busy ∧ Carried s queue s' queue' := by
  have unchanged : ∃ queue' free', s.Ok queue' free' busy ∧ Carried s queue s queue' :=
    ⟨queue, free, ok, Nat.le_refl _, rfl, rfl, fun _ member _ => ⟨member, rfl⟩⟩
  rw [start_timer] at done
  split at done
  · cases done
    exact unchanged
  · dsimp only at done
    split at done
    · cases done
      exact unchanged
    · obtain ⟨t, n, queue', free', okT, started, result⟩ := start_timer_int_spec ok tid
        time_to_expir handler hdata (timerSafety env handler).2
      rw [result] at done
      have inHandlerT := started.rest.inHandler
      have clock := Nat.le_of_eq started.rest.clock.symm
      have stack := started.rest.stack
      have kept : ∀ a ∈ queue, (s.heap a).expir_time ≤ s.clock →
          a ∈ queue' ∧ (t.heap a).expir_time = (s.heap a).expir_time := fun a member expired =>
        started.kept a member (not_expired ok notExpired member expired)
      split at done
      · rw [start_first_timer_inHandler (inHandlerT.trans inHandler)] at done
        cases done
        exact ⟨queue', free', okT.setDeferred false, clock, stack, inHandlerT, kept⟩
      · cases done
        exact ⟨queue', free', okT, clock, stack, inHandlerT, kept⟩

theorem cancel_timer_inHandler (ok : s.Ok queue free busy) (inHandler : s.timer_in_handler = true)
    {tid : TID} (notExpired : s.expired tid = false) {s' : TimerState}
    (done : cancel_timer timerHandler env tid s = some s') :
    ∃ queue' free', s'.Ok queue' free' busy ∧ Carried s queue s' queue' := by
  obtain ⟨t, queue', free', removing, okT, removed⟩ := remove_timer_spec ok tid
  simp only [cancel_timer, removing, Option.bind_eq_bind, Option.bind_some] at done
  have inHandlerT := removed.rest.inHandler
  have clock := Nat.le_of_eq removed.rest.clock.symm
  have stack := removed.rest.stack
  have kept : ∀ a ∈ queue, (s.heap a).expir_time ≤ s.clock →
      a ∈ queue' ∧ (t.heap a).expir_time = (s.heap a).expir_time := by
    intro a member expired
    exact ⟨removed.kept a member (not_expired ok notExpired member expired), (removed.same a).1⟩
  split at done
  · split at done
    · rw [start_first_timer_inHandler (inHandlerT.trans inHandler)] at done
      cases done
      exact ⟨queue', free', okT.setDeferred false, clock, stack, inHandlerT, kept⟩
    · split at done
      · cases done
        refine ⟨queue', free', ?_, clock, stack, inHandlerT, kept⟩
        exact { okT with entries := { okT.entries with }, armed := nofun }
      · cases done
        exact ⟨queue', free', okT, clock, stack, inHandlerT, kept⟩
  · cases done
    exact ⟨queue', free', okT, clock, stack, inHandlerT, kept⟩

/-! ## Starting the first timer -/

/-- Mark the state in which an entry was left. -/
theorem TimerState.Ok.block (ok : s.Ok queue free busy) (a state : Nat) :
    (s.modify a fun t => { t with block_int := state }).Ok queue free busy := by
  have heap : ∀ b, ((s.modify a fun t => { t with block_int := state }).heap b).next =
      (s.heap b).next ∧ (s.heap b).SameTimer
        ((s.modify a fun t => { t with block_int := state }).heap b) := by
    intro b
    by_cases here : b = a
    · rw [here, TimerState.modify_heap_self]
      exact ⟨rfl, .refl _⟩
    · rw [TimerState.modify_heap_of_ne _ _ _ here]
      exact ⟨rfl, .refl _⟩
  refine ⟨?_, ?_, ok.blocks, ok.free_count, ?_, ok.dispatched_started, ok.punctual, ok.armed⟩
  · exact ok.queue_chain.congr fun b _ => (heap b).1
  · exact ok.free_chain.congr fun b _ => (heap b).1
  · apply ok.entries.congr
    · exact fun b _ => (heap b).2
    · rfl
    · rfl
    · exact Nat.le_refl _

theorem modify_block_expir_time (s : TimerState) (a state b : Nat) :
    ((s.modify a fun t => { t with block_int := state }).heap b).expir_time =
      (s.heap b).expir_time := by
  by_cases here : b = a
  · rw [here, TimerState.modify_heap_self]
  · rw [TimerState.modify_heap_of_ne _ _ _ here]

/-- What is needed of `timer_handler`, called `stack` deep outside of handlers. -/
def Settles (timerHandler : Bool → TimerState → Option TimerState) (stack : Nat) : Prop :=
  ∀ is_os_signal_handler s queue free s', s.Ok queue free [] → s.timer_stack_count = stack →
    s.timer_in_handler = false → timerHandler is_os_signal_handler s = some s' →
    s'.Settled stack s.clock

/-- The loop starts the first timer. -/
theorem startFirstLoop_spec {stack : Nat} (settles : Settles timerHandler stack) {curr_time : Nat}
    {is_os_signal_handler : Bool} (rounds : Nat) {front rest : List Nat} {tpop : Option Nat}
    {s' : TimerState} (ok : s.Ok (front ++ rest) free []) (here : tpop = rest.head?) (depth : s.timer_stack_count = stack)
    (outside : s.timer_in_handler = false) (read : curr_time ≤ s.clock)
    (expired : ∀ a ∈ front, (s.heap a).expir_time ≤ curr_time)
    (deferred : front ≠ [] → s.deferred_timers_check_needed = true)
    (done : startFirstLoop timerHandler env curr_time is_os_signal_handler rounds tpop s = some s') :
    s'.Settled stack s.clock := by
  subst here
  induction rounds generalizing s front rest with
  | zero => cases done
  | succ rounds ih =>
    cases rest with
    | nil =>
      cases done
      refine ⟨front ++ [], free, ok, ?_, depth, outside, Nat.le_refl _⟩
      intro nonempty
      rw [List.append_nil] at nonempty
      exact .inl (deferred nonempty)
    | cons a back =>
      rw [List.head?_cons, startFirstLoop] at done
      dsimp only at done
      split at done
      next isExpired =>
        split at done
        · exact settles _ _ _ _ _ ok depth outside done
        · -- The timer is left for later, and the walk goes on behind it.
          have next : (s.heap a).next = back.head? := by
            obtain ⟨_, _, _, rest⟩ := Lib.segment_append.mp ok.queue_chain
            exact Chain.root_eq rest
          rw [next] at done
          have blocked := (ok.block a env.intrpt_ok_state).setDeferred true
          rw [← List.singleton_append, ← List.append_assoc] at blocked
          apply ih blocked depth outside read _ _ done
          · intro b member
            apply Nat.le_trans (Nat.le_of_eq (modify_block_expir_time s a env.intrpt_ok_state b))
            rcases List.mem_append.mp member with inFront | here
            · exact expired b inFront
            · rw [List.mem_singleton.mp here]
              exact isExpired
          · intro _
            rfl
      next notExpired =>
        cases done
        refine ⟨front ++ a :: back, free, ?_, ?_, depth, outside, Nat.le_refl _⟩
        · exact { ok with
            entries := { ok.entries with }
            armed := fun _ => ⟨_, rfl, read, by
              show curr_time + ((s.heap a).expir_time - curr_time) = (s.heap a).expir_time
              omega⟩ }
        · intro _
          right
          refine ⟨rfl, ?_⟩
          intro b member later
          show (s.heap a).expir_time ≤ (s.heap b).expir_time
          rcases List.mem_append.mp member with inFront | inBack
          · have early := expired b inFront
            exact absurd later (Nat.not_lt.mpr (Nat.le_trans early read))
          · rcases List.mem_cons.mp inBack with rfl | behind
            · exact Nat.le_refl _
            · have sorted := (List.pairwise_append.mp ok.entries.sorted).2.1
              exact (List.pairwise_cons.mp sorted).1 b behind

theorem start_first_timer_spec {stack : Nat} (settles : Settles timerHandler stack)
    (shallow : stack ≤ 1) {curr_time : Nat} {is_os_signal_handler : Bool} {s' : TimerState}
    (ok : s.Ok queue free []) (depth : s.timer_stack_count = stack)
    (outside : s.timer_in_handler = false) (read : curr_time ≤ s.clock)
    (done : start_first_timer timerHandler env curr_time is_os_signal_handler s = some s') :
    s'.Settled stack s.clock := by
  have proceeds : ¬ (1 < s.timer_stack_count ∨ s.timer_in_handler = true) := by
    rw [outside, depth]
    rintro (deep | impossible)
    · omega
    · cases impossible
  rw [start_first_timer] at done
  dsimp only at done
  rw [if_neg proceeds] at done
  have okStart : TimerState.Ok { s with deferred_timers_check_needed := false } ([] ++ queue) free [] :=
    ok.setDeferred false
  have settled := startFirstLoop_spec settles (s.allocated + 1) okStart ok.queue_chain.root_eq depth
    outside read nofun nofun done
  exact settled

end Calls

/-! ## Handlers -/

theorem TimerState.Ok.signalled (ok : s.Ok queue free busy) (is_os_signal_handler : Bool) :
    (s.signalled is_os_signal_handler).Ok queue free busy := by
  refine { ok with entries := { ok.entries with }, armed := ?_ }
  cases is_os_signal_handler with
  | true => simp [TimerState.signalled]
  | false => simpa [TimerState.signalled] using ok.armed

/-- A call of `timer_handler` during another one only asks for another look. -/
theorem timer_handler_busy {env : TimerEnv} {rounds depth : Nat} {is_os_signal_handler : Bool}
    {s' : TimerState} (ok : s.Ok queue free busy) (running : 1 ≤ s.timer_stack_count)
    (done : timer_handler env rounds depth is_os_signal_handler s = some s') :
    s'.Ok queue free busy ∧ Carried s queue s' queue ∧ s'.deferred_timers_check_needed = true := by
  cases depth with
  | zero => cases done
  | succ depth =>
    rw [timer_handler, timerHandlerBody] at done
    dsimp only at done
    have nested : 1 < (s.signalled is_os_signal_handler).timer_stack_count + 1 :=
      Nat.lt_succ_of_le running
    rw [if_pos nested] at done
    cases done
    exact ⟨(ok.signalled _).setDeferred true,
      ⟨Nat.le_refl _, rfl, rfl, fun _ member _ => ⟨member, rfl⟩⟩, rfl⟩

theorem timer_handler_settles_busy (env : TimerEnv) (rounds depth : Nat) :
    Settles (timer_handler env rounds depth) 1 := by
  intro is_os_signal_handler s queue free s' ok running outside done
  obtain ⟨ok', carried, deferred⟩ := timer_handler_busy ok (Nat.le_of_eq running.symm) done
  exact ⟨queue, free, ok', fun _ => .inl deferred, carried.stack.trans running,
    carried.inHandler.trans outside, carried.clock⟩

/-- An action of a handler. -/
theorem runAction_spec {env : TimerEnv} {rounds depth : Nat} {s' : TimerState}
    (ok : s.Ok queue free busy) (running : 1 ≤ s.timer_stack_count)
    (inHandler : s.timer_in_handler = true) (action : HandlerAction)
    (done : runAction (timer_handler env rounds depth) env s action = some s') :
    ∃ queue' free', s'.Ok queue' free' busy ∧ Carried s queue s' queue' := by
  cases action with
  | wait duration =>
    cases done
    exact ⟨queue, free, { ok with entries := { ok.entries with } }, Nat.le_add_right _ _, rfl, rfl,
      fun _ member _ => ⟨member, rfl⟩⟩
  | start tid time_to_expir handler hdata =>
    rw [runAction] at done
    split at done
    · cases done
    next notExpired =>
      rw [Bool.not_eq_true] at notExpired
      exact start_timer_inHandler ok inHandler notExpired done
  | cancel tid =>
    rw [runAction] at done
    split at done
    · cases done
    next notExpired =>
      rw [Bool.not_eq_true] at notExpired
      exact cancel_timer_inHandler ok inHandler notExpired done
  | alarm =>
    obtain ⟨ok', carried, _⟩ := timer_handler_busy ok running done
    exact ⟨queue, free, ok', carried⟩

/-- What a handler starts and cancels leaves the queue in order. -/
theorem runActions_spec {env : TimerEnv} {rounds depth : Nat} (actions : List HandlerAction)
    {s' : TimerState} (ok : s.Ok queue free busy) (running : 1 ≤ s.timer_stack_count)
    (inHandler : s.timer_in_handler = true)
    (done : actions.foldlM (runAction (timer_handler env rounds depth) env) s = some s') :
    ∃ queue' free', s'.Ok queue' free' busy ∧ Carried s queue s' queue' := by
  induction actions generalizing s queue free with
  | nil =>
    cases done
    exact ⟨queue, free, ok, Nat.le_refl _, rfl, rfl, fun _ member _ => ⟨member, rfl⟩⟩
  | cons action actions ih =>
    rw [List.foldlM_cons] at done
    obtain ⟨t, first, rest⟩ := Option.bind_eq_some_iff.mp done
    obtain ⟨queue₁, free₁, ok₁, carried₁⟩ := runAction_spec ok running inHandler action first
    obtain ⟨queue₂, free₂, ok₂, carried₂⟩ := ih ok₁
      (by rw [carried₁.stack]; exact running) (carried₁.inHandler.trans inHandler) rest
    exact ⟨queue₂, free₂, ok₂, carried₁.trans carried₂⟩

/-- All that a handler does. -/
theorem callHandler_spec {env : TimerEnv} {rounds depth : Nat} {s' : TimerState}
    (ok : s.Ok queue free busy) (running : 1 ≤ s.timer_stack_count)
    (done : callHandler (timer_handler env rounds depth) env s = some s') :
    ∃ queue' free', s'.Ok queue' free' busy ∧ s.clock ≤ s'.clock ∧
      s'.timer_stack_count = s.timer_stack_count ∧
      ∀ a ∈ queue, (s.heap a).expir_time ≤ s.clock →
        a ∈ queue' ∧ (s'.heap a).expir_time = (s.heap a).expir_time := by
  rw [callHandler] at done
  split at done
  · cases done
  next actions script _ =>
    have okStart : TimerState.Ok { s with script := script, timer_in_handler := true } queue free
        busy := { ok with entries := { ok.entries with } }
    obtain ⟨queue', free', ok', carried⟩ := runActions_spec actions okStart running rfl done
    exact ⟨queue', free', ok', carried.clock, carried.stack, carried.kept⟩

/-! ## Dispatching -/

section Dispatching

variable {front back : List Nat} {a : Nat}

theorem TimerState.takeOut_same (s : TimerState) (before : Option Nat) (a : Nat) :
    (s.takeOut before a).clock = s.clock ∧
      (s.takeOut before a).timer_stack_count = s.timer_stack_count ∧
      (s.takeOut before a).timer_in_handler = s.timer_in_handler := by
  cases before <;> exact ⟨rfl, rfl, rfl⟩

/-- The block of a dispatched timer is in hand. -/
theorem TimerState.Ok.dispatch (ok : s.Ok (front ++ a :: back) free busy)
    (expired : (s.heap a).expir_time ≤ s.clock) :
    (s.takeOut front.getLast? a).Ok (front ++ back) free (a :: busy) := by
  rw [TimerState.takeOut]
  have unlinked := ok.unlink
  have kept := s.link_sameTimer front.getLast? (s.heap a).next
  have rest := s.link_eq front.getLast? (s.heap a).next
  have count := congrArg TimerState.safe_timer_cnt rest
  have dispatched := congrArg TimerState.dispatched rest
  have clock := congrArg TimerState.clock rest
  have starts := congrArg TimerState.starts rest
  generalize s.link front.getLast? (s.heap a).next = t at *
  dsimp only at count dispatched clock starts ⊢
  rw [count, clock, dispatched]
  refine { unlinked with
    entries := { unlinked.entries with once := ?_ }
    dispatched_started := ?_
    punctual := ?_ }
  · have once := ok.entries.once
    rw [List.map_append, List.map_cons] at once
    have same : (front ++ back).map (fun b => (t.heap b).started) =
        (front ++ back).map fun b => (s.heap b).started :=
      List.map_congr_left fun b _ => (kept b).2.2.2
    show (List.map (fun b => (t.heap b).started) (front ++ back) ++ (s.heap a).started :: _).Nodup
    rw [same, List.map_append]
    apply (List.Perm.nodup_iff _).mp once
    apply List.Perm.trans (List.Perm.append_right _ List.perm_middle)
    exact List.perm_middle.symm
  · intro d member
    rw [starts]
    rcases List.mem_cons.mp member with rfl | earlier
    · exact ok.entries.started a (List.mem_append_right _ List.mem_cons_self)
    · exact ok.dispatched_started d earlier
  · intro d member
    rcases List.mem_cons.mp member with rfl | earlier
    · exact expired
    · exact ok.punctual d earlier

/-- A kept entry is the end of a part of the queue. -/
theorem kept_prefix (ok : s.Ok queue free busy) {previous : Option Nat} {limit : Nat}
    (kept : ∀ p, previous = some p → p ∈ queue ∧ (s.heap p).expir_time ≤ limit) :
    ∃ front back, queue = front ++ back ∧ front.getLast? = previous ∧
      ∀ b ∈ front, (s.heap b).expir_time ≤ limit := by
  cases previous with
  | none => exact ⟨[], queue, rfl, rfl, nofun⟩
  | some p =>
    obtain ⟨member, early⟩ := kept p rfl
    obtain ⟨front, back, whole⟩ := List.append_of_mem member
    refine ⟨front ++ [p], back, ?_, ?_, ?_⟩
    · rw [whole, List.append_assoc, List.singleton_append]
    · rw [List.getLast?_append, List.getLast?_singleton]
      rfl
    · intro b inFront
      have sorted := ok.entries.sorted
      rw [whole] at sorted
      have before := (List.pairwise_append.mp sorted).2.2
      rcases List.mem_append.mp inFront with earlier | here
      · exact Nat.le_trans (before b earlier p List.mem_cons_self) early
      · rw [List.mem_singleton.mp here]
        exact early

/-- One handler's run leaves the queue in order. -/
theorem dispatchTimer_spec {env : TimerEnv} {rounds depth at' at₁ : Nat} {s' : TimerState}
    (ok : s.Ok queue free busy) (running : 1 ≤ s.timer_stack_count)
    (outside : s.timer_in_handler = false) (read : at' ≤ s.clock)
    (done : dispatchTimer (timer_handler env rounds depth) env a at' s = some (s', at₁)) :
    ∃ queue' free', s'.Ok queue' free' busy ∧ Carried s queue s' queue' ∧ at₁ ≤ s'.clock := by
  rw [dispatchTimer] at done
  split at done
  · cases done
    exact ⟨queue, free, ok, ⟨Nat.le_refl _, rfl, rfl, fun _ member _ => ⟨member, rfl⟩⟩, read⟩
  · obtain ⟨t, called, rest⟩ := Option.bind_eq_some_iff.mp done
    obtain ⟨queue', free', okT, clock, stack, kept⟩ := callHandler_spec ok running called
    cases rest
    refine ⟨queue', free', { okT with entries := { okT.entries with } }, ?_, ?_⟩
    · exact ⟨clock, stack, outside.symm, kept⟩
    · split
      · exact Nat.le_refl _
      · exact Nat.le_trans read clock

/-- Where the loop of `timer_handler` stands: it has come behind the entries in `front`,
which are expired. -/
structure Popping (s : TimerState) (front rest free : List Nat) (tpop tpop_prev : Option Nat)
    (at' : Nat) : Prop where
  ok : s.Ok (front ++ rest) free []
  here : tpop = rest.head?
  previous : tpop_prev = front.getLast?
  expired : ∀ b ∈ front, (s.heap b).expir_time ≤ s.clock
  running : s.timer_stack_count = 1
  outside : s.timer_in_handler = false
  read : at' ≤ s.clock

/-- A timer is dispatched. -/
theorem Popping.dispatch {tpop_prev : Option Nat} {at' at₁ : Nat} {env : TimerEnv}
    {rounds depth : Nat} {s' : TimerState} (popping : Popping s front (a :: back) free (some a)
      tpop_prev at') (expired : (s.heap a).expir_time ≤ at')
    (done : dispatchTimer (timer_handler env rounds depth) env a at' (s.takeOut tpop_prev a) =
      some (s', at₁)) :
    s.clock ≤ s'.clock ∧ ∃ front' rest' free', Popping (s'.release a) front' rest' free'
      ((s'.release a).after tpop_prev) tpop_prev at₁ := by
  obtain ⟨ok, _, previous, early, running, outside, read⟩ := popping
  have unlinked := ok.dispatch (Nat.le_trans expired read)
  rw [← previous] at unlinked
  have sameTimer : ∀ b, (s.heap b).SameTimer ((s.takeOut tpop_prev a).heap b) :=
    s.link_sameTimer tpop_prev (s.heap a).next
  obtain ⟨clock, stack, inHandler⟩ := s.takeOut_same tpop_prev a
  generalize s.takeOut tpop_prev a = t at *
  obtain ⟨queue', free', ok', carried, read'⟩ := dispatchTimer_spec unlinked
    (Nat.le_of_eq (stack.trans running).symm) (inHandler.trans outside)
    (Nat.le_trans read (Nat.le_of_eq clock.symm)) done
  have later : s.clock ≤ s'.clock := Nat.le_trans (Nat.le_of_eq clock.symm) carried.clock
  have released := ok'.release
  have releasedTimer : ∀ b, ((s'.release a).heap b).expir_time = (s'.heap b).expir_time := fun b =>
    (s'.setNext_sameTimer a s'.timefree b).1
  -- The last entry that was left is still in the queue.
  have stays : ∀ p, tpop_prev = some p → p ∈ queue' ∧
      ((s'.release a).heap p).expir_time ≤ s'.clock := by
    rintro p rfl
    have inFront : p ∈ front := List.mem_of_getLast? previous.symm
    have was : (t.heap p).expir_time ≤ t.clock := by
      rw [(sameTimer p).1, clock]
      exact early p inFront
    obtain ⟨member, same⟩ := carried.kept p (List.mem_append_left _ inFront) was
    refine ⟨member, ?_⟩
    rw [releasedTimer, same]
    exact Nat.le_trans was carried.clock
  obtain ⟨front', rest', whole, last, passed⟩ := kept_prefix released stays
  subst whole
  refine ⟨later, front', rest', a :: free', released, ?_, last.symm, passed, ?_, ?_, read'⟩
  · have next := released.queue_chain.follower_eq
    rw [follower, last] at next
    cases tpop_prev with
    | none => exact next
    | some p => exact next
  · exact carried.stack.trans (stack.trans running)
  · exact carried.inHandler.trans (inHandler.trans outside)

/-- A timer is left in the queue. -/
theorem Popping.leave {tpop_prev : Option Nat} {at' : Nat} (popping : Popping s front (a :: back)
      free (some a) tpop_prev at') (expired : (s.heap a).expir_time ≤ at') (state : Nat) :
    Popping (s.modify a fun t => { t with block_int := state }) (front ++ [a]) back free
      (s.heap a).next (some a) at' := by
  obtain ⟨ok, _, previous, early, running, outside, read⟩ := popping
  have blocked := ok.block a state
  rw [← List.singleton_append, ← List.append_assoc] at blocked
  refine ⟨blocked, ?_, ?_, ?_, running, outside, read⟩
  · obtain ⟨_, _, rest⟩ := Lib.segment_append.mp ok.queue_chain
    exact Chain.root_eq rest.2
  · rw [List.getLast?_append, List.getLast?_singleton]
    rfl
  · intro b member
    apply Nat.le_trans (Nat.le_of_eq (modify_block_expir_time s a state b))
    rcases List.mem_append.mp member with inFront | here
    · exact early b inFront
    · rw [List.mem_singleton.mp here]
      exact Nat.le_trans expired read

/-- The loop of `timer_handler` ends with the queue in order. -/
theorem popLoop_spec {env : TimerEnv} {rounds depth : Nat} {is_os_signal_handler : Bool}
    (steps : Nat) {front rest : List Nat} {tpop tpop_prev : Option Nat} {at' timer_defer_cnt : Nat}
    {result : TimerState × Nat × Nat} (popping : Popping s front rest free tpop tpop_prev at')
    (done : popLoop (timer_handler env rounds depth) env is_os_signal_handler steps tpop tpop_prev
      at' timer_defer_cnt s = some result) :
    s.clock ≤ result.1.clock ∧ ∃ front' rest' free' tpop' tpop_prev',
      Popping result.1 front' rest' free' tpop' tpop_prev' result.2.1 := by
  induction steps generalizing s front rest free tpop tpop_prev at' timer_defer_cnt with
  | zero => cases done
  | succ steps ih =>
    have stop : s.clock ≤ s.clock ∧ ∃ front' rest' free' tpop' tpop_prev',
        Popping s front' rest' free' tpop' tpop_prev' at' :=
      ⟨Nat.le_refl _, front, rest, free, tpop, tpop_prev, popping⟩
    cases rest with
    | nil =>
      obtain rfl := popping.here
      cases done
      exact stop
    | cons a back =>
      obtain rfl := popping.here
      rw [List.head?_cons, popLoop] at done
      dsimp only at done
      split at done
      next notExpired =>
        cases done
        exact stop
      next isExpired =>
        rw [Nat.not_lt] at isExpired
        split at done
        next runs =>
          obtain ⟨⟨t, at₁⟩, dispatched, continues⟩ := Option.bind_eq_some_iff.mp done
          obtain ⟨later, _, _, _, popping'⟩ := popping.dispatch isExpired dispatched
          obtain ⟨later', final⟩ := ih popping' continues
          exact ⟨Nat.le_trans later later', final⟩
        next stays =>
          have left := popping.leave isExpired env.intrpt_ok_state
          split at done
          · cases done
            exact ⟨Nat.le_refl _, _, _, _, _, _, left⟩
          · have final := ih left done
            exact final

end Dispatching

/-! ## The whole package -/

/-- `timer_handler` called while no other one is running. -/
theorem timer_handler_settles (env : TimerEnv) (rounds depth : Nat) :
    Settles (timer_handler env rounds depth) 0 := by
  intro is_os_signal_handler s queue free s' ok idle outside done
  cases depth with
  | zero => cases done
  | succ depth =>
    rw [timer_handler, timerHandlerBody] at done
    dsimp only at done
    have first : ¬ 1 < (s.signalled is_os_signal_handler).timer_stack_count + 1 := by
      show ¬ 1 < s.timer_stack_count + 1
      rw [idle]
      decide
    rw [if_neg first] at done
    obtain ⟨⟨t, at', timer_defer_cnt⟩, popped, rest⟩ := Option.bind_eq_some_iff.mp done
    obtain ⟨u, restarted, finished⟩ := Option.bind_eq_some_iff.mp rest
    cases finished
    have okStart : TimerState.Ok { s.signalled is_os_signal_handler with
        timer_stack_count := (s.signalled is_os_signal_handler).timer_stack_count + 1
        deferred_timers_check_needed := false } ([] ++ queue) free [] :=
      { (ok.signalled is_os_signal_handler) with
        entries := { (ok.signalled is_os_signal_handler).entries with } }
    have popping := @Popping.mk _ [] _ _ _ _ s.clock okStart ok.queue_chain.root_eq rfl nofun
      (congrArg (· + 1) idle) outside (Nat.le_refl _)
    obtain ⟨later, front', rest', free', _, _, final⟩ := popLoop_spec rounds popping popped
    have settled : u.Settled 1 t.clock := by
      rw [restartTimers] at restarted
      split at restarted
      · exact start_first_timer_spec (timer_handler_settles_busy env rounds depth) (Nat.le_refl _)
          final.ok final.running final.outside final.read restarted
      · split at restarted
        · cases restarted
          exact ⟨front' ++ rest', free', final.ok.setDeferred true, fun _ => .inl rfl,
            final.running, final.outside, Nat.le_refl _⟩
        next empty =>
          cases restarted
          refine ⟨front' ++ rest', free', final.ok, ?_, final.running, final.outside, Nat.le_refl _⟩
          intro nonempty
          have root := final.ok.queue_chain.root_eq
          obtain ⟨b, others, whole⟩ := List.exists_cons_of_ne_nil nonempty
          rw [whole, List.head?_cons] at root
          rw [root] at empty
          exact absurd rfl empty
    obtain ⟨queue', free'', ok', wakes, stack, outside', clock⟩ := settled
    refine ⟨queue', free'', { ok' with entries := { ok'.entries with } }, wakes, ?_, outside', ?_⟩
    · show u.timer_stack_count - 1 = 0
      rw [stack]
    · exact Nat.le_trans later clock

section Calls

variable {env : TimerEnv} {rounds depth start : Nat} {tid : TID} {s' : TimerState}

/-- A start outside of handlers. -/
theorem start_timer_settles {time_to_expir : Nat} {handler : Option TimerHandler}
    {hdata : List UInt8} (settled : s.Settled 0 start)
    (done : start_timer (timer_handler env rounds depth) env tid time_to_expir handler hdata s =
      some s') : s'.Settled 0 start := by
  rw [start_timer] at done
  split at done
  · cases done
    exact settled
  · dsimp only at done
    split at done
    · cases done
      exact settled
    · obtain ⟨queue, free, ok, wakes, idle, outside, later⟩ := settled
      obtain ⟨t, n, queue', free', okT, started, result⟩ := start_timer_int_spec ok tid
        time_to_expir handler hdata (timerSafety env handler).2
      rw [result] at done
      have idleT := started.rest.stack.trans idle
      have outsideT := started.rest.inHandler.trans outside
      have clock := started.rest.clock
      split at done
      · obtain ⟨queue'', free'', ok', wakes', stack, inHandler, after⟩ :=
          start_first_timer_spec (timer_handler_settles env rounds depth) (Nat.zero_le _) okT idleT
            outsideT (Nat.le_of_eq clock.symm) done
        exact ⟨queue'', free'', ok', wakes', stack, inHandler, by omega⟩
      next waits =>
        cases done
        refine ⟨queue', free', okT, ?_, idleT, outsideT, by omega⟩
        intro nonempty
        -- The new timer is not the first one, so the process was already going to look.
        rw [not_or, not_or, Nat.not_lt, Bool.not_eq_false] at waits
        obtain ⟨notFirst, active, notEarlier⟩ := waits
        obtain ⟨b, others, whole⟩ := List.exists_cons_of_ne_nil nonempty
        have inQueue' : b ∈ queue' := by
          rw [whole]
          exact List.mem_cons_self
        have other : b ≠ n := by
          rintro rfl
          apply notFirst
          rw [okT.queue_chain.root_eq, whole, List.head?_cons, Option.map_some, started.tid]
        have inQueue : b ∈ queue := by
          rcases started.origin b inQueue' with isNew | ⟨old, _⟩
          · exact absurd isNew other
          · exact old
        rcases wakes (List.ne_nil_of_mem inQueue) with deferred | ⟨_, armed⟩
        · left
          rw [started.deferred ⟨b, inQueue', other⟩]
          exact deferred
        · right
          refine ⟨active, ?_⟩
          intro c member unexpired
          rcases started.origin c member with rfl | ⟨old, same⟩
          · exact notEarlier
          · rw [same, clock] at unexpired
            rw [same, started.rest.sys_timer_at]
            exact armed c old unexpired

/-- A cancellation outside of handlers. -/
theorem cancel_timer_settles (settled : s.Settled 0 start)
    (done : cancel_timer (timer_handler env rounds depth) env tid s = some s') :
    s'.Settled 0 start := by
  obtain ⟨queue, free, ok, wakes, idle, outside, later⟩ := settled
  obtain ⟨t, queue', free', removing, okT, removed⟩ := remove_timer_spec ok tid
  simp only [cancel_timer, removing, Option.bind_eq_bind, Option.bind_some] at done
  have idleT := removed.rest.stack.trans idle
  have outsideT := removed.rest.inHandler.trans outside
  have clock := removed.rest.clock
  have stillWakes : t.Wakes queue' := by
    intro nonempty
    obtain ⟨b, others, whole⟩ := List.exists_cons_of_ne_nil nonempty
    have member : b ∈ queue' := by
      rw [whole]
      exact List.mem_cons_self
    rcases wakes (List.ne_nil_of_mem (removed.subset b member)) with deferred | ⟨active, armed⟩
    · left
      rw [removed.deferred nonempty]
      exact deferred
    · right
      refine ⟨removed.rest.active.trans active, ?_⟩
      intro c old unexpired
      rw [(removed.same c).1, clock] at unexpired
      rw [(removed.same c).1, removed.rest.sys_timer_at]
      exact armed c (removed.subset c old) unexpired
  split at done
  · split at done
    · obtain ⟨queue'', free'', ok', wakes', stack, inHandler, after⟩ :=
        start_first_timer_spec (timer_handler_settles env rounds depth) (Nat.zero_le _) okT idleT
          outsideT (Nat.le_of_eq clock.symm) done
      exact ⟨queue'', free'', ok', wakes', stack, inHandler, by omega⟩
    next empty =>
      have isEmpty : queue' = [] := by
        have root := okT.queue_chain.root_eq
        cases queue' with
        | nil => rfl
        | cons b others =>
          rw [List.head?_cons] at root
          rw [root] at empty
          exact absurd rfl empty
      subst isEmpty
      split at done
      · cases done
        refine ⟨[], free', ?_, nofun, idleT, outsideT, ?_⟩
        · exact { okT with entries := { okT.entries with }, armed := nofun }
        · exact Nat.le_trans later (Nat.le_of_eq clock.symm)
      · cases done
        exact ⟨[], free', okT, nofun, idleT, outsideT, by omega⟩
  · cases done
    exact ⟨queue', free', okT, stillWakes, idleT, outsideT, by omega⟩

end Calls

/-- The package before it is used. -/
def TimerState.blank (clock : Nat) : TimerState where
  heap := fun _ => ⟨0, 0, none, none, 0, false, 0, 0, [], 0⟩
  timeroot := none
  timefree := none
  num_timers_free := 0
  allocated := 0
  safe_timer_cnt := 0
  timer_active := false
  timer_in_handler := false
  timer_stack_count := 0
  deferred_timers_check_needed := false
  sys_timer_at := 0
  sys_timer := none
  clock := clock
  script := []
  starts := 0
  dispatched := []

/-- The state with the first timers allocated. -/
def prealloc_gt_timers (clock : Nat) : TimerState := gt_timers_alloc (TimerState.blank clock)

/-- The steps of a process, as seen from outside of the package. The state of the process
and what the handlers do are free in each call. -/
inductive TimerState.Step (s : TimerState) : TimerState → Prop
  | wait (duration : Nat) : Step s { s with clock := s.clock + duration }
  | start {env : TimerEnv} {rounds depth : Nat} {script : List (List HandlerAction)} {tid : TID}
      {time_to_expir : Nat} {handler : Option TimerHandler} {hdata : List UInt8} {s' : TimerState}
      (done : start_timer (timer_handler env rounds depth) env tid time_to_expir handler hdata
        { s with script := script } = some s') : Step s s'
  | cancel {env : TimerEnv} {rounds depth : Nat} {script : List (List HandlerAction)} {tid : TID}
      {s' : TimerState} (done : cancel_timer (timer_handler env rounds depth) env tid
        { s with script := script } = some s') : Step s s'
  | handle {env : TimerEnv} {rounds depth : Nat} {script : List (List HandlerAction)}
      {is_os_signal_handler : Bool} {s' : TimerState}
      (done : timer_handler env rounds depth is_os_signal_handler
        { s with script := script } = some s') : Step s s'

theorem TimerState.Settled.setScript {start : Nat} (settled : s.Settled 0 start)
    (script : List (List HandlerAction)) :
    TimerState.Settled { s with script := script } 0 start := by
  obtain ⟨queue, free, ok, wakes, rest⟩ := settled
  exact ⟨queue, free, { ok with entries := { ok.entries with } }, wakes, rest⟩

theorem TimerState.Step.settled {s' : TimerState} (step : s.Step s')
    (settled : s.Settled 0 0) : s'.Settled 0 0 := by
  cases step with
  | wait duration =>
    obtain ⟨queue, free, ok, wakes, idle, outside, _⟩ := settled
    refine ⟨queue, free, { ok with entries := { ok.entries with } }, ?_, idle, outside, Nat.zero_le _⟩
    intro nonempty
    rcases wakes nonempty with deferred | ⟨active, armed⟩
    · exact .inl deferred
    · right
      refine ⟨active, ?_⟩
      intro a member unexpired
      exact armed a member (Nat.lt_of_le_of_lt (Nat.le_add_right _ duration) unexpired)
  | start done => exact start_timer_settles (settled.setScript _) done
  | cancel done => exact cancel_timer_settles (settled.setScript _) done
  | @handle env rounds depth script _ _ done =>
    obtain ⟨queue, free, ok, _, idle, outside, _⟩ := settled.setScript script
    obtain ⟨queue', free', ok', wakes, stack, inHandler, _⟩ :=
      timer_handler_settles env rounds depth _ _ _ _ _ ok idle outside done
    exact ⟨queue', free', ok', wakes, stack, inHandler, Nat.zero_le _⟩

theorem prealloc_gt_timers_settled (clock : Nat) : (prealloc_gt_timers clock).Settled 0 0 := by
  have empty : (TimerState.blank clock).Ok [] [] [] :=
    ⟨rfl, rfl, .nil, rfl, ⟨.nil, .nil, rfl, .nil, nofun⟩, nofun, nofun, nofun⟩
  obtain ⟨free, ok, untouched⟩ := gt_timers_alloc_spec empty
  exact ⟨[], free, ok, nofun, untouched.rest.stack, untouched.rest.inHandler, Nat.zero_le _⟩

/-- The states between calls of the package. -/
def TimerState.Reachable (s : TimerState) : Prop :=
  ∃ clock, Relation.ReflTransGen TimerState.Step (prealloc_gt_timers clock) s

theorem TimerState.Reachable.settled (reachable : s.Reachable) : s.Settled 0 0 := by
  obtain ⟨clock, run⟩ := reachable
  induction run with
  | refl => exact prealloc_gt_timers_settled clock
  | tail _ step ih => exact step.settled ih

/-- The queue and the free list hold all blocks; the queue is sorted and has one entry for
each timer; timers are dispatched once and not early; and the process looks at a queue
that is not empty again, by the clock as it was read when the system timer was armed
no later than the first timer that is not expired. -/
theorem timer_package_runs (reachable : s.Reachable) : ∃ queue free,
    Chain s.nextOf s.timeroot queue ∧ Chain s.nextOf s.timefree free ∧
    (queue ++ free).Perm (List.range s.allocated) ∧
    queue.Pairwise (fun a b => (s.heap a).expir_time ≤ (s.heap b).expir_time) ∧
    (queue.map fun a => (s.heap a).tid).Nodup ∧
    s.safe_timer_cnt = (queue.countP fun a => (s.heap a).safe : Nat) ∧
    ((queue.map fun a => (s.heap a).started) ++ s.dispatched.map Dispatch.started).Nodup ∧
    (∀ d ∈ s.dispatched, d.expir_time ≤ d.time) ∧
    (queue ≠ [] → s.deferred_timers_check_needed = true ∨
      ∃ t, s.sys_timer = some t ∧ t.read ≤ t.set ∧ ∀ a ∈ queue, s.clock < (s.heap a).expir_time →
        t.read + t.it_value ≤ (s.heap a).expir_time) := by
  obtain ⟨queue, free, ok, wakes, _⟩ := reachable.settled
  have blocks := ok.blocks
  rw [List.append_nil] at blocks
  refine ⟨queue, free, ok.queue_chain, ok.free_chain, blocks, ok.entries.sorted, ok.entries.tids,
    ok.entries.safe_count, ok.entries.once, ok.punctual, ?_⟩
  intro nonempty
  rcases wakes nonempty with deferred | ⟨active, armed⟩
  · exact .inl deferred
  · obtain ⟨t, isArmed, read, expiry⟩ := ok.armed active
    right
    refine ⟨t, isArmed, read, ?_⟩
    intro a member unexpired
    rw [expiry]
    exact armed a member unexpired

/-- The block below on the free list. -/
def below : Nat → Option Nat
  | 0 => none
  | n + 1 => some n

/-- Blocks that were put on the free list one after the other. -/
def TimerState.stacked (clock count : Nat) : TimerState :=
  { TimerState.blank clock with
    heap := fun n => if n < count then
        ⟨0, 0, none, below n, 0, false, 0, GT_TIMER_INIT_DATA_LEN, [], 0⟩
      else ⟨0, 0, none, none, 0, false, 0, 0, [], 0⟩
    timefree := below count
    allocated := count }

theorem stacked_newBlock (clock count : Nat) :
    (TimerState.stacked clock count).newBlock = TimerState.stacked clock (count + 1) := by
  have heap : (TimerState.stacked clock count).newBlock.heap =
      (TimerState.stacked clock (count + 1)).heap := by
    funext n
    simp only [TimerState.newBlock, TimerState.stacked]
    by_cases here : n = count
    · subst here
      simp
    · rw [Function.update_of_ne here]
      congr 1
      simp
      omega
  exact congrArg (fun heap => { TimerState.stacked clock (count + 1) with heap := heap }) heap

theorem stacked_allocLoop (clock : Nat) (count : Nat) (already : Nat) :
    allocLoop count (TimerState.stacked clock already) = TimerState.stacked clock (already + count) := by
  induction count generalizing already with
  | zero => rfl
  | succ count ih =>
    rw [allocLoop, stacked_newBlock, ih, Nat.add_right_comm]
    rfl

/-- The package after `prealloc_gt_timers`, written out. -/
def TimerState.preallocated : TimerState :=
  { TimerState.stacked 0 TIMER_BLOCK_SIZE with num_timers_free := TIMER_BLOCK_SIZE }

theorem prealloc_gt_timers_eq : prealloc_gt_timers 0 = TimerState.preallocated := by
  have start : TimerState.blank 0 = TimerState.stacked 0 0 := by
    simp [TimerState.stacked, below, TimerState.blank]
  rw [prealloc_gt_timers, gt_timers_alloc, start, stacked_allocLoop, Nat.zero_add]
  simp [TimerState.preallocated, TimerState.stacked, TimerState.blank]

/-- A process in which any handler may run. -/
def TimerEnv.calm : TimerEnv where
  intrpt_ok_state := INTRPT_OK_TO_INTERRUPT
  process_exiting := false
  fast_lock_count := 0
  multi_thread_in_use := false
  in_ext_call := false
  in_os_signal_handler := false
  exit_handler_active := false
  safe_handlers := [.other 0]

/-- The handler of a safe timer takes some time, while another timer is waiting. -/
def slowSafeHandler : Option TimerState := do
  let s ← start_timer (timer_handler .calm 8 2) .calm 1 10 (some (.other 0)) [] .preallocated
  let s ← start_timer (timer_handler .calm 8 2) .calm 2 20 (some (.other 0)) [] { s with script := [] }
  timer_handler .calm 8 2 true { s with clock := s.clock + 10, script := [[.wait 5]] }

theorem slowSafeHandler_reachable {s : TimerState} (done : slowSafeHandler = some s) :
    s.Reachable := by
  rw [slowSafeHandler, Option.bind_eq_bind] at done
  obtain ⟨s₁, first, rest⟩ := Option.bind_eq_some_iff.mp done
  obtain ⟨s₂, second, last⟩ := Option.bind_eq_some_iff.mp rest
  refine ⟨0, .tail (.tail (.tail (.single ?_) (.start second)) (.wait 10)) (.handle last)⟩
  rw [prealloc_gt_timers_eq]
  exact .start first

/-- The system timer is armed by a reading of the clock from before the handler. -/
theorem slowSafeHandler_alarm :
    slowSafeHandler.any (fun s => s.timeroot.any fun a =>
      s.sys_timer.any fun t => !s.deferred_timers_check_needed &&
        s.clock < (s.heap a).expir_time && (s.heap a).expir_time < t.alarm) = true := by
  decide +kernel

/-- The alarm comes after the first timer, which is not expired. -/
theorem system_timer_late : ∃ s : TimerState, s.Reachable ∧ ∃ a t, s.timeroot = some a ∧
    s.sys_timer = some t ∧ s.deferred_timers_check_needed = false ∧
    s.clock < (s.heap a).expir_time ∧ (s.heap a).expir_time < t.alarm := by
  obtain ⟨s, done, holds⟩ := (Option.any_eq_true _ _).mp slowSafeHandler_alarm
  obtain ⟨a, root, holds⟩ := (Option.any_eq_true _ _).mp holds
  obtain ⟨t, armed, holds⟩ := (Option.any_eq_true _ _).mp holds
  rw [Bool.and_eq_true, Bool.and_eq_true, Bool.not_eq_true', decide_eq_true_eq,
    decide_eq_true_eq] at holds
  exact ⟨s, slowSafeHandler_reachable done, a, t, root, armed, holds.1.1, holds.1.2, holds.2⟩

/-- The run of a slow handler ends in order. -/
theorem timer_package_runs_slow_handler : ∃ s, slowSafeHandler = some s ∧ ∃ queue free,
    Chain s.nextOf s.timeroot queue ∧ Chain s.nextOf s.timefree free ∧
    (queue ++ free).Perm (List.range s.allocated) ∧
    queue.Pairwise (fun a b => (s.heap a).expir_time ≤ (s.heap b).expir_time) ∧
    (queue.map fun a => (s.heap a).tid).Nodup ∧
    s.safe_timer_cnt = (queue.countP fun a => (s.heap a).safe : Nat) ∧
    ((queue.map fun a => (s.heap a).started) ++ s.dispatched.map Dispatch.started).Nodup ∧
    (∀ d ∈ s.dispatched, d.expir_time ≤ d.time) ∧
    (queue ≠ [] → s.deferred_timers_check_needed = true ∨
      ∃ t, s.sys_timer = some t ∧ t.read ≤ t.set ∧ ∀ a ∈ queue, s.clock < (s.heap a).expir_time →
        t.read + t.it_value ≤ (s.heap a).expir_time) := by
  obtain ⟨s, done, _⟩ := (Option.any_eq_true _ _).mp slowSafeHandler_alarm
  exact ⟨s, done, timer_package_runs (slowSafeHandler_reachable done)⟩

end Ydb
