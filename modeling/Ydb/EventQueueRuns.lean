import Mathlib.Data.List.Perm.Basic
import Ydb.EventQueue

/-!
# Runs of the queue of deferred events

The nodes from the first to the last are the events that wait, in the order in which they
were saved. Every call keeps this, unless the last node is removed by its handler: then the
pointer to the last node still points to the node that was freed.
-/

namespace Ydb.EventQueue

open Lib

variable {η : Type}

/-! ## A list of events -/

section ListCalls

variable [DecidableEq η]

/-- What a call returns, what it drops, and the events that wait, each with the address of its node. -/
def listCall (cells : List (Nat × XferEvent η)) :
    QueueCall η → Option (XferEvent η) × List (XferEvent η) × List (Nat × XferEvent η)
  | .save new_node event => (none, [], cells ++ [(new_node, event)])
  | .pop => (cells.head?.map (·.2), [], cells.tail)
  | .remove set_fn => (none, (cells.find? fun c => c.2.set_fn = set_fn).toList.map (·.2),
      cells.eraseP fun c => c.2.set_fn = set_fn)
  | .empty => (none, cells.map (·.2), [])

/-- All events that are popped, those dropped, and those that wait. -/
def listRun : List (QueueCall η) → List (Nat × XferEvent η) →
    List (XferEvent η) × List (XferEvent η) × List (Nat × XferEvent η)
  | [], cells => ([], [], cells)
  | c :: calls, cells =>
    let (popped, dropped, cells) := listCall cells c
    let (others, dropped', cells) := listRun calls cells
    (popped.toList ++ others, dropped ++ dropped', cells)

/-- The events that are saved, in order. -/
def savedEvents : List (QueueCall η) → List (XferEvent η)
  | [] => []
  | .save _ event :: calls => event :: savedEvents calls
  | _ :: calls => savedEvents calls

/-- What is asked of a call: a node that is allocated is not in use, and the last node is not removed. -/
def CallOk (cells : List (Nat × XferEvent η)) : QueueCall η → Prop
  | .save new_node _ => new_node ∉ cells.map Prod.fst
  | .remove set_fn => ∀ before c, cells = before ++ [c] → c.2.set_fn = set_fn →
      ∃ b ∈ before, b.2.set_fn = set_fn
  | _ => True

/-- What is asked of all calls of a run. -/
def RunOk : List (QueueCall η) → List (Nat × XferEvent η) → Prop
  | [], _ => True
  | c :: calls, cells => CallOk cells c ∧ RunOk calls (listCall cells c).2.2

end ListCalls

/-! ## The queue as a list -/

/-- The node behind another. -/
def nextOf (heap : Nat → Option (save_xfer_entry η)) (a : Nat) : Option Nat := (heap a).bind (·.next)

/-- The queue holds the events, in order, and no other nodes; the tail is the last node. -/
structure Represents (q : XferQueue η) (cells : List (Nat × XferEvent η)) : Prop where
  chain : Chain (nextOf q.heap) q.save_xfer_root (cells.map Prod.fst)
  nodup : (cells.map Prod.fst).Nodup
  tail : q.save_xfer_tail = (cells.map Prod.fst).getLast?
  events : ∀ c ∈ cells, (q.heap c.1).map (·.event) = some c.2
  free : ∀ a, a ∉ cells.map Prod.fst → q.heap a = none

variable {q : XferQueue η} {cells : List (Nat × XferEvent η)} {heap : Nat → Option (save_xfer_entry η)}

@[simp] theorem writeNode_self (a : Nat) (node : Option (save_xfer_entry η)) : writeNode heap a node a = node :=
  if_pos rfl

theorem writeNode_of_ne {a b : Nat} (node : Option (save_xfer_entry η)) (other : b ≠ a) :
    writeNode heap a node b = heap b := if_neg other

theorem nextOf_writeNode_of_ne {a b : Nat} (node : Option (save_xfer_entry η)) (other : b ≠ a) :
    nextOf (writeNode heap a node) b = nextOf heap b := by
  rw [nextOf, writeNode_of_ne node other]
  rfl

theorem Represents.node (represents : Represents q cells) {c : Nat × XferEvent η} (member : c ∈ cells) :
    q.heap c.1 = some ⟨nextOf q.heap c.1, c.2⟩ := by
  have event := represents.events c member
  obtain ⟨⟨next, event'⟩, here, same⟩ := Option.map_eq_some_iff.mp event
  subst same
  rw [nextOf, here]
  rfl

theorem Represents.empty : Represents (emptyQueue : XferQueue η) [] where
  chain := rfl
  nodup := List.nodup_nil
  tail := rfl
  events := nofun
  free _ _ := rfl

/-! ## Saving and popping -/

/-- A saved event comes last. -/
theorem Represents.save (represents : Represents q cells) {new_node : Nat} (event : XferEvent η)
    (fresh : new_node ∉ cells.map Prod.fst) :
    ∃ q', save_xfer_queue_entry q new_node event = some q' ∧
      Represents q' (cells ++ [(new_node, event)]) := by
  rcases List.eq_nil_or_concat cells with rfl | ⟨front, last, same⟩
  · have root : q.save_xfer_root = none := represents.chain
    rw [save_xfer_queue_entry, root]
    refine ⟨_, rfl, ?_, List.nodup_singleton new_node, rfl, ?_, ?_⟩
    · exact ⟨rfl, by simp [Segment, nextOf]⟩
    · intro c member
      rw [List.nil_append, List.mem_singleton] at member
      subst member
      simp
    · intro a other
      have apart : a ≠ new_node := fun same => other (same ▸ List.mem_singleton_self new_node)
      dsimp only
      rw [writeNode_of_ne _ apart]
      exact represents.free a List.not_mem_nil
  · rw [List.concat_eq_append] at same
    subst same
    have member : last ∈ front ++ [last] := List.mem_append_right _ (List.mem_singleton_self last)
    have tail : q.save_xfer_tail = some last.1 := by
      rw [represents.tail, List.map_append]
      simp
    have apart : last.1 ≠ new_node := fun same => fresh (same ▸ List.mem_map_of_mem member)
    have there := represents.node member
    obtain ⟨root, isRoot⟩ : ∃ root, q.save_xfer_root = some root := by
      have first := represents.chain.root_eq
      cases front with
      | nil => exact ⟨_, first⟩
      | cons c front => exact ⟨_, first⟩
    have lastAddress : ((front ++ [last]).map Prod.fst).getLast? = some last.1 := by simp
    -- the new node first, then the pointer to it
    have before : Chain (nextOf (writeNode q.heap new_node (some ⟨none, event⟩))) q.save_xfer_root
        ((front ++ [last]).map Prod.fst ++ []) := by
      rw [List.append_nil]
      apply represents.chain.congr
      intro a inQueue
      apply nextOf_writeNode_of_ne
      rintro rfl
      exact fresh inQueue
    have nodup : ((front ++ [last]).map Prod.fst ++ []).Nodup := by
      rw [List.append_nil]
      exact represents.nodup
    have new : new_node ∉ (front ++ [last]).map Prod.fst ++ [] := by
      rw [List.append_nil]
      exact fresh
    have linked := before.insert nodup new (by simp [nextOf])
    rw [lastAddress] at linked
    rw [save_xfer_queue_entry, isRoot, tail]
    dsimp only
    have used : writeNode q.heap new_node (some ⟨none, event⟩) last.1 = some ⟨nextOf q.heap last.1, last.2⟩ := by
      rw [writeNode_of_ne _ apart, there]
    refine ⟨⟨writeNode (writeNode q.heap new_node (some ⟨none, event⟩)) last.1 (some ⟨some new_node, last.2⟩),
      q.save_xfer_root, some new_node⟩, ?_, ?_, ?_, ?_, ?_, ?_⟩
    · rw [isRoot]
      change (Option.bind (writeNode q.heap new_node (some ⟨none, event⟩) last.1) fun node => _) = _
      rw [used]
      rfl
    · rw [List.map_append]
      apply Chain.congr linked
      intro a _
      by_cases here : a = last.1
      · subst here
        simp [nextOf, relinkNext]
      · dsimp only
        rw [nextOf_writeNode_of_ne _ here, relinkNext, Function.update_of_ne here]
    · rw [List.map_append]
      apply List.Nodup.append represents.nodup (List.nodup_singleton new_node)
      intro a inQueue isNew
      rw [List.mem_singleton] at isNew
      exact fresh (isNew ▸ inQueue)
    · simp
    · intro c inQueue
      dsimp only
      rcases List.mem_append.mp inQueue with old | isNew
      · by_cases here : c.1 = last.1
        · have same : c = last := List.inj_on_of_nodup_map represents.nodup old member here
          rw [same, writeNode_self]
          rfl
        · have other : c.1 ≠ new_node := fun same => fresh (same ▸ List.mem_map_of_mem old)
          rw [writeNode_of_ne _ here, writeNode_of_ne _ other]
          exact represents.events c old
      · rw [List.mem_singleton] at isNew
        subst isNew
        rw [writeNode_of_ne _ apart.symm, writeNode_self]
        rfl
    · intro a outside
      rw [List.map_append, List.mem_append] at outside
      have notLast : a ≠ last.1 := fun same => outside (.inl (same ▸ List.mem_map_of_mem member))
      have notNew : a ≠ new_node := fun same => outside (.inr (same ▸ List.mem_singleton_self new_node))
      dsimp only
      rw [writeNode_of_ne _ notLast, writeNode_of_ne _ notNew]
      exact represents.free a fun inQueue => outside (.inl inQueue)

/-- The first event is popped. -/
theorem Represents.pop (represents : Represents q cells) :
    ∃ q', pop_reset_xfer_entry q = some (cells.head?.map (·.2), q') ∧ Represents q' cells.tail := by
  cases cells with
  | nil =>
    have root : q.save_xfer_root = none := represents.chain
    rw [pop_reset_xfer_entry, root]
    exact ⟨q, rfl, represents⟩
  | cons c rest =>
    have root : q.save_xfer_root = some c.1 := represents.chain.1
    have here := represents.node List.mem_cons_self
    have nodup := represents.nodup
    rw [List.map_cons, List.nodup_cons] at nodup
    rw [pop_reset_xfer_entry, root]
    dsimp only
    rw [here]
    refine ⟨⟨writeNode q.heap c.1 none, nextOf q.heap c.1,
      if some c.1 = q.save_xfer_tail then none else q.save_xfer_tail⟩, rfl, ?_, nodup.2, ?_, ?_, ?_⟩
    · apply represents.chain.tail.congr
      intro a inQueue
      apply nextOf_writeNode_of_ne
      rintro rfl
      exact nodup.1 inQueue
    · dsimp only
      rw [represents.tail, List.map_cons, List.tail_cons]
      cases others : rest.map Prod.fst with
      | nil => rw [List.getLast?_singleton, if_pos rfl]; rfl
      | cons a as =>
        have apart : some c.1 ≠ (c.1 :: a :: as).getLast? := by
          intro same
          apply nodup.1
          rw [others]
          exact List.mem_of_getLast? (by rw [← List.getLast?_cons_cons, same])
        rw [if_neg apart, List.getLast?_cons_cons]
    · intro d inQueue
      have other : d.1 ≠ c.1 := fun same => nodup.1 (same ▸ List.mem_map_of_mem inQueue)
      dsimp only
      rw [writeNode_of_ne _ other]
      exact represents.events d (List.mem_cons_of_mem c inQueue)
    · intro a outside
      dsimp only
      by_cases gone : a = c.1
      · rw [gone, writeNode_self]
      · rw [writeNode_of_ne _ gone]
        apply represents.free
        rw [List.map_cons, List.mem_cons]
        exact fun inQueue => inQueue.elim gone outside

/-! ## Removing -/

variable [DecidableEq η]

/-- The search finds the oldest node with the handler and the node before it. -/
theorem find_queue_entry_spec (set_fn : η) {start : Option Nat}
    (chain : Chain (nextOf heap) start (cells.map Prod.fst))
    (nodes : ∀ c ∈ cells, heap c.1 = some ⟨nextOf heap c.1, c.2⟩) {turns : Nat} (enough : cells.length < turns)
    (qprev : Option Nat) :
    ((∀ c ∈ cells, c.2.set_fn ≠ set_fn) ∧
      ∃ last, find_queue_entry heap set_fn turns start qprev = some (none, last)) ∨
    ∃ before c after, cells = before ++ c :: after ∧ c.2.set_fn = set_fn ∧
      (∀ b ∈ before, b.2.set_fn ≠ set_fn) ∧
      find_queue_entry heap set_fn turns start qprev =
        some (some c.1, (before.map Prod.fst).getLast?.or qprev) := by
  induction cells generalizing start turns qprev with
  | nil =>
    obtain ⟨turns, rfl⟩ : ∃ n, turns = n + 1 := ⟨turns - 1, by rw [List.length_nil] at enough; omega⟩
    have stop : start = none := chain
    exact .inl ⟨nofun, qprev, by rw [stop]; rfl⟩
  | cons c rest ih =>
    obtain ⟨turns, rfl⟩ : ∃ n, turns = n + 1 := ⟨turns - 1, by omega⟩
    have few : rest.length < turns := by
      rw [List.length_cons] at enough
      omega
    have first : start = some c.1 := chain.1
    have here := nodes c List.mem_cons_self
    have step : find_queue_entry heap set_fn (turns + 1) start qprev =
        if c.2.set_fn = set_fn then some (some c.1, qprev)
        else find_queue_entry heap set_fn turns (nextOf heap c.1) (some c.1) := by
      rw [first, find_queue_entry, here]
      rfl
    by_cases found : c.2.set_fn = set_fn
    · exact .inr ⟨[], c, rest, rfl, found, nofun, by rw [step, if_pos found]; rfl⟩
    · have others : ∀ d ∈ rest, heap d.1 = some ⟨nextOf heap d.1, d.2⟩ := fun d member =>
        nodes d (List.mem_cons_of_mem c member)
      rw [step, if_neg found]
      rcases ih chain.tail others few (some c.1) with ⟨none, run⟩ |
        ⟨before, d, after, split, here', earlier, run⟩
      · refine .inl ⟨fun d member => ?_, run⟩
        rcases List.mem_cons.mp member with rfl | member
        · exact found
        · exact none d member
      · refine .inr ⟨c :: before, d, after, by rw [split]; rfl, here', fun b member => ?_, ?_⟩
        · rcases List.mem_cons.mp member with rfl | member
          · exact found
          · exact earlier b member
        · rw [run]
          cases before with
          | nil => rfl
          | cons b before =>
            rw [List.map_cons, List.map_cons, List.map_cons, List.getLast?_cons_cons]
            simp [List.getLast?_cons]

omit [DecidableEq η] in
/-- The node `qp` was removed, and the pointer before it leads on. -/
theorem Represents.unlink {before after : List (Nat × XferEvent η)} {c : Nat × XferEvent η}
    (represents : Represents q (before ++ c :: after)) (more : after ≠ [])
    {heap' : Nat → Option (save_xfer_entry η)}
    (freed : heap' c.1 = none)
    (kept : ∀ a, a ≠ c.1 → (heap' a).map (·.event) = (q.heap a).map (·.event) ∧ nextOf heap' a =
      relinkNext (nextOf q.heap) (before.map Prod.fst).getLast? (nextOf q.heap c.1) a) :
    Represents ⟨heap', relinkRoot q.save_xfer_root (before.map Prod.fst).getLast? (nextOf q.heap c.1),
      q.save_xfer_tail⟩ (before ++ after) := by
  have chain := represents.chain
  have nodup := represents.nodup
  rw [List.map_append, List.map_cons] at chain nodup
  have gone : c.1 ∉ (before ++ after).map Prod.fst := by
    rw [List.map_append, List.mem_append]
    rw [List.nodup_middle, List.nodup_cons, List.mem_append] at nodup
    exact nodup.1
  have unlinked := chain.unlink nodup
  rw [← List.map_append] at unlinked
  constructor
  · apply Chain.congr unlinked
    intro a inQueue
    exact (kept a fun same => gone (same ▸ inQueue)).2
  · rw [List.nodup_middle, List.nodup_cons, ← List.map_append] at nodup
    exact nodup.2
  · have last := represents.tail
    dsimp only
    rw [last, List.map_append, List.map_append, List.map_cons]
    cases after with
    | nil => exact absurd rfl more
    | cons d after => simp [List.getLast?_append, List.getLast?_cons_cons]
  · intro d inQueue
    have other : d.1 ≠ c.1 := fun same => gone (same ▸ List.mem_map_of_mem inQueue)
    dsimp only
    rw [(kept d.1 other).1]
    apply represents.events
    rcases List.mem_append.mp inQueue with old | new
    · exact List.mem_append_left _ old
    · exact List.mem_append_right _ (List.mem_cons_of_mem c new)
  · intro a outside
    dsimp only
    by_cases same : a = c.1
    · rw [same, freed]
    · have away : q.heap a = none := by
        apply represents.free
        rw [List.map_append, List.map_cons, List.mem_append, List.mem_cons]
        rw [List.map_append, List.mem_append] at outside
        rintro (old | here | new)
        · exact outside (.inl old)
        · exact same here
        · exact outside (.inr new)
      have none := (kept a same).1
      rw [away] at none
      exact Option.map_eq_none_iff.mp none

theorem eraseP_oldest {before after : List (Nat × XferEvent η)} {c : Nat × XferEvent η} {set_fn : η}
    (found : c.2.set_fn = set_fn) (earlier : ∀ b ∈ before, b.2.set_fn ≠ set_fn) :
    ((before ++ c :: after).eraseP fun c => c.2.set_fn = set_fn) = before ++ after := by
  rw [List.eraseP_append_right _ (fun b member => by simpa using earlier b member),
    List.eraseP_cons_of_pos (by simpa using found)]

/-- The first event of a handler is removed. -/
theorem Represents.remove (represents : Represents q cells) {set_fn : η}
    (kept : CallOk cells (.remove set_fn)) {turns : Nat} (enough : cells.length < turns) :
    ∃ q', remove_queue_entry turns q set_fn = some q' ∧
      Represents q' (cells.eraseP fun c => c.2.set_fn = set_fn) := by
  rw [remove_queue_entry]
  rcases find_queue_entry_spec set_fn represents.chain (fun c => represents.node) enough none with
    ⟨none, last, run⟩ | ⟨before, c, after, rfl, found, earlier, run⟩
  · rw [run, List.eraseP_of_forall_not fun c member => by simpa using none c member]
    exact ⟨q, rfl, represents⟩
  · have more : after ≠ [] := by
      rintro rfl
      obtain ⟨b, member, same⟩ := kept before c rfl found
      exact earlier b member same
    have here := represents.node (List.mem_append_right before List.mem_cons_self)
    rw [run, eraseP_oldest found earlier]
    rcases List.eq_nil_or_concat before with rfl | ⟨front, p, same⟩
    · -- the first node is removed
      refine ⟨⟨writeNode q.heap c.1 none, nextOf q.heap c.1, q.save_xfer_tail⟩, ?_, ?_⟩
      · change (Option.bind (q.heap c.1) fun node => _) = _
        rw [here]
        rfl
      · apply represents.unlink more
        · simp
        · intro a other
          rw [writeNode_of_ne _ other, nextOf_writeNode_of_ne _ other]
          exact ⟨rfl, rfl⟩
    · -- the node before points to the one behind
      rw [List.concat_eq_append] at same
      subst same
      have member : p ∈ front ++ [p] ++ c :: after := by simp
      have there := represents.node member
      have last : ((front ++ [p]).map Prod.fst).getLast? = some p.1 := by simp
      rw [last]
      refine ⟨⟨writeNode (writeNode q.heap p.1 (some ⟨nextOf q.heap c.1, p.2⟩)) c.1 none,
        q.save_xfer_root, q.save_xfer_tail⟩, ?_, ?_⟩
      · change (Option.bind (q.heap c.1) fun node => Option.bind (q.heap p.1) fun before => _) = _
        rw [here, there]
        rfl
      · have freed : writeNode (writeNode q.heap p.1 (some ⟨nextOf q.heap c.1, p.2⟩)) c.1 none c.1 = none :=
          writeNode_self c.1 none
        have unlinked := represents.unlink more freed
        rw [last] at unlinked
        apply unlinked
        intro a other
        rw [writeNode_of_ne _ other, nextOf_writeNode_of_ne _ other]
        by_cases isBefore : a = p.1
        · subst isBefore
          rw [there]
          simp [nextOf, relinkNext]
        · rw [writeNode_of_ne _ isBefore, nextOf_writeNode_of_ne _ isBefore, relinkNext,
            Function.update_of_ne isBefore]
          exact ⟨rfl, rfl⟩

/-! ## Emptying -/

omit [DecidableEq η] in
/-- The loop frees every node. -/
theorem freeLoop_spec {start : Option Nat} (chain : Chain (nextOf heap) start (cells.map Prod.fst))
    (nodup : (cells.map Prod.fst).Nodup)
    (nodes : ∀ c ∈ cells, heap c.1 = some ⟨nextOf heap c.1, c.2⟩) {turns : Nat} (enough : cells.length < turns) :
    ∃ heap', freeLoop turns heap start = some heap' ∧
      ∀ a, heap' a = if a ∈ cells.map Prod.fst then none else heap a := by
  induction cells generalizing heap start turns with
  | nil =>
    obtain ⟨turns, rfl⟩ : ∃ n, turns = n + 1 := ⟨turns - 1, by rw [List.length_nil] at enough; omega⟩
    have stop : start = none := chain
    exact ⟨heap, by rw [stop]; rfl, fun a => rfl⟩
  | cons c rest ih =>
    obtain ⟨turns, rfl⟩ : ∃ n, turns = n + 1 := ⟨turns - 1, by omega⟩
    have few : rest.length < turns := by
      rw [List.length_cons] at enough
      omega
    rw [List.map_cons, List.nodup_cons] at nodup
    have first : start = some c.1 := chain.1
    have here := nodes c List.mem_cons_self
    have apart : ∀ d ∈ rest, d.1 ≠ c.1 := by
      intro d member same
      exact nodup.1 (same ▸ List.mem_map_of_mem member)
    have chain' : Chain (nextOf (writeNode heap c.1 none)) (nextOf heap c.1) (rest.map Prod.fst) := by
      apply chain.tail.congr
      intro a inQueue
      apply nextOf_writeNode_of_ne
      rintro rfl
      exact nodup.1 inQueue
    have nodes' : ∀ d ∈ rest, writeNode heap c.1 none d.1 = some ⟨nextOf (writeNode heap c.1 none) d.1, d.2⟩ := by
      intro d member
      rw [writeNode_of_ne _ (apart d member), nextOf_writeNode_of_ne _ (apart d member)]
      exact nodes d (List.mem_cons_of_mem c member)
    obtain ⟨heap', run, contents⟩ := ih chain' nodup.2 nodes' few
    refine ⟨heap', ?_, fun a => ?_⟩
    · rw [first, freeLoop, here]
      exact run
    · rw [contents a, List.map_cons]
      by_cases gone : a = c.1
      · rw [gone, writeNode_self, ite_self, if_pos List.mem_cons_self]
      · have others : a ∈ c.1 :: rest.map Prod.fst ↔ a ∈ rest.map Prod.fst :=
          List.mem_cons.trans (or_iff_right gone)
        rw [writeNode_of_ne _ gone, if_congr others rfl rfl]

omit [DecidableEq η] in
theorem Represents.clear (represents : Represents q cells) {turns : Nat} (enough : cells.length < turns) :
    ∃ q', empty_queue turns q = some q' ∧ Represents q' [] := by
  obtain ⟨heap, run, contents⟩ :=
    freeLoop_spec represents.chain represents.nodup (fun c => represents.node) enough
  refine ⟨⟨heap, none, none⟩, ?_, rfl, List.nodup_nil, rfl, nofun, fun a _ => ?_⟩
  · rw [empty_queue, run]
    rfl
  · dsimp only
    rw [contents a]
    by_cases inQueue : a ∈ cells.map Prod.fst
    · rw [if_pos inQueue]
    · rw [if_neg inQueue, represents.free a inQueue]

/-! ## Runs -/

/-- A call does to the queue what it does to the list. -/
theorem Represents.call (represents : Represents q cells) {c : QueueCall η} (ok : CallOk cells c) {turns : Nat}
    (enough : cells.length < turns) :
    ∃ q', call turns q c = some ((listCall cells c).1, q') ∧ Represents q' (listCall cells c).2.2 := by
  cases c with
  | save new_node event =>
    obtain ⟨q', run, represents'⟩ := represents.save event ok
    exact ⟨q', by rw [EventQueue.call, run]; rfl, represents'⟩
  | pop => exact represents.pop
  | remove set_fn =>
    obtain ⟨q', run, represents'⟩ := represents.remove ok enough
    exact ⟨q', by rw [EventQueue.call, run]; rfl, represents'⟩
  | empty =>
    obtain ⟨q', run, represents'⟩ := represents.clear enough
    exact ⟨q', by rw [EventQueue.call, run]; rfl, represents'⟩

theorem listCall_length (cells : List (Nat × XferEvent η)) (c : QueueCall η) :
    (listCall cells c).2.2.length ≤ cells.length + 1 := by
  cases c with
  | save new_node event => simp [listCall]
  | pop =>
    simp only [listCall, List.length_tail]
    omega
  | remove set_fn => exact Nat.le_succ_of_le (List.length_eraseP_le)
  | empty => exact Nat.zero_le _

theorem Represents.run (represents : Represents q cells) {calls : List (QueueCall η)} (ok : RunOk calls cells)
    {turns : Nat} (enough : cells.length + calls.length < turns) :
    ∃ q', runCalls turns calls q = some ((listRun calls cells).1, q') ∧
      Represents q' (listRun calls cells).2.2 := by
  induction calls generalizing q cells with
  | nil => exact ⟨q, rfl, represents⟩
  | cons c calls ih =>
    rw [List.length_cons] at enough
    have length := listCall_length cells c
    have few : cells.length < turns := by omega
    have fewer : (listCall cells c).2.2.length + calls.length < turns := by omega
    obtain ⟨q₁, first, represents₁⟩ := represents.call ok.1 few
    obtain ⟨q', run, represents'⟩ := ih represents₁ ok.2 fewer
    refine ⟨q', ?_, represents'⟩
    rw [runCalls, first]
    change (Option.bind (runCalls turns calls q₁) fun r => _) = _
    rw [run]
    rfl

omit [DecidableEq η] in
theorem savedEvents_cons (c : QueueCall η) (calls : List (QueueCall η)) :
    savedEvents (c :: calls) = savedEvents [c] ++ savedEvents calls := by
  cases c <;> rfl

/-- Removing the oldest event of a handler. -/
theorem remove_order (cells : List (Nat × XferEvent η)) (set_fn : η) :
    ((cells.eraseP fun c => c.2.set_fn = set_fn).map Prod.snd).Sublist (cells.map Prod.snd) ∧
      (cells.map Prod.snd).Perm ((cells.find? fun c => c.2.set_fn = set_fn).toList.map Prod.snd ++
        (cells.eraseP fun c => c.2.set_fn = set_fn).map Prod.snd) := by
  refine ⟨List.eraseP_sublist.map _, ?_⟩
  induction cells with
  | nil => exact .nil
  | cons c rest ih =>
    by_cases found : c.2.set_fn = set_fn
    · rw [List.find?_cons_of_pos (by simpa using found), List.eraseP_cons_of_pos (by simpa using found)]
      exact .refl _
    · rw [List.find?_cons_of_neg (by simpa using found), List.eraseP_cons_of_neg (by simpa using found),
        List.map_cons, List.map_cons]
      exact (ih.cons c.2).trans List.perm_middle.symm

/-- One call keeps the order. -/
theorem listCall_order (cells : List (Nat × XferEvent η)) (c : QueueCall η) :
    ((listCall cells c).1.toList ++ (listCall cells c).2.2.map Prod.snd).Sublist
        (cells.map Prod.snd ++ savedEvents [c]) ∧
      (cells.map Prod.snd ++ savedEvents [c]).Perm
        ((listCall cells c).1.toList ++ (listCall cells c).2.1 ++ (listCall cells c).2.2.map Prod.snd) := by
  cases c with
  | save new_node event => simp [listCall, savedEvents]
  | pop => cases cells <;> simp [listCall, savedEvents]
  | remove set_fn => simpa [listCall, savedEvents] using remove_order cells set_fn
  | empty => simp [listCall, savedEvents]

/-- What is popped and what waits is what was saved, in order, but for what was dropped. -/
theorem listRun_order (calls : List (QueueCall η)) (cells : List (Nat × XferEvent η)) :
    ((listRun calls cells).1 ++ (listRun calls cells).2.2.map Prod.snd).Sublist
        (cells.map Prod.snd ++ savedEvents calls) ∧
      (cells.map Prod.snd ++ savedEvents calls).Perm
        ((listRun calls cells).1 ++ (listRun calls cells).2.1 ++ (listRun calls cells).2.2.map Prod.snd) := by
  induction calls generalizing cells with
  | nil => simp [listRun, savedEvents]
  | cons c calls ih =>
    obtain ⟨ordered, counted⟩ := ih (listCall cells c).2.2
    obtain ⟨ordered', counted'⟩ := listCall_order cells c
    rw [savedEvents_cons, ← List.append_assoc]
    change ((listCall cells c).1.toList ++ (listRun calls (listCall cells c).2.2).1 ++
      (listRun calls (listCall cells c).2.2).2.2.map Prod.snd).Sublist _ ∧ List.Perm _
        ((listCall cells c).1.toList ++ (listRun calls (listCall cells c).2.2).1 ++
          ((listCall cells c).2.1 ++ (listRun calls (listCall cells c).2.2).2.1) ++
          (listRun calls (listCall cells c).2.2).2.2.map Prod.snd)
    generalize (listCall cells c).1.toList = popped at ordered' counted' ⊢
    generalize (listCall cells c).2.1 = dropped at counted' ⊢
    generalize listRun calls (listCall cells c).2.2 = others at ordered counted ⊢
    generalize (listCall cells c).2.2.map Prod.snd = waiting at ordered' counted' ordered counted ⊢
    constructor
    · rw [List.append_assoc]
      apply ((List.Sublist.refl popped).append ordered).trans
      rw [← List.append_assoc]
      exact ordered'.append_right _
    · apply (counted'.append_right _).trans
      rw [List.append_assoc]
      apply (counted.append_left _).trans
      simp only [List.append_assoc]
      exact (List.perm_append_comm_assoc _ _ _).append_left popped

/-- In every run that never removes the last node, the queue is the list, and the events come out in the
order in which they were saved. -/
theorem queue_refines_list (calls : List (QueueCall η)) (ok : RunOk calls []) {turns : Nat}
    (enough : calls.length < turns) :
    ∃ q, runCalls turns calls emptyQueue = some ((listRun calls []).1, q) ∧
      Represents q (listRun calls []).2.2 ∧
      ((listRun calls []).1 ++ (listRun calls []).2.2.map Prod.snd).Sublist (savedEvents calls) ∧
      (savedEvents calls).Perm
        ((listRun calls []).1 ++ (listRun calls []).2.1 ++ (listRun calls []).2.2.map Prod.snd) := by
  obtain ⟨q, run, represents⟩ := Represents.empty.run ok (by simpa using enough)
  obtain ⟨ordered, counted⟩ := listRun_order calls []
  exact ⟨q, run, represents, ordered, counted⟩

/-- Of two events the first is removed by its handler, a third one is saved, and the second
is popped. -/
def saveRemovePop : List (QueueCall Nat) :=
  [.save 100 ⟨1, 5, 0⟩, .save 200 ⟨2, 6, 0⟩, .remove 5, .save 300 ⟨3, 7, 0⟩, .pop]

/-- The run with a removal in the middle. -/
theorem queue_refines_list_small :
    ∃ q, runCalls 6 saveRemovePop emptyQueue = some ((listRun saveRemovePop []).1, q) ∧
      Represents q (listRun saveRemovePop []).2.2 ∧
      ((listRun saveRemovePop []).1 ++ (listRun saveRemovePop []).2.2.map Prod.snd).Sublist
        (savedEvents saveRemovePop) ∧
      (savedEvents saveRemovePop).Perm ((listRun saveRemovePop []).1 ++
        (listRun saveRemovePop []).2.1 ++ (listRun saveRemovePop []).2.2.map Prod.snd) := by
  have notLast : CallOk [(100, ⟨1, 5, 0⟩), (200, ⟨2, 6, 0⟩)] (QueueCall.remove 5 : QueueCall Nat) := by
    intro before c whole isFirst
    have last := congrArg List.getLast? whole
    rw [List.getLast?_concat] at last
    cases last
    cases isFirst
  have ok : RunOk saveRemovePop [] :=
    ⟨List.not_mem_nil, by simp [CallOk, listCall], notLast, by simp [CallOk, listCall], trivial,
      trivial⟩
  exact queue_refines_list saveRemovePop ok (by decide)

/-- The last of two events is removed by its handler, and a third one is saved. -/
def removeLast : List (QueueCall Nat) := [.save 100 ⟨1, 5, 0⟩, .save 200 ⟨2, 6, 0⟩, .remove 6]

/-- The tail still points to the node that was removed, so that the next event is saved in freed memory. -/
theorem tail_dangles :
    (∃ q, runCalls 9 removeLast emptyQueue = some ([], q) ∧ q.save_xfer_root = some 100 ∧
      q.save_xfer_tail = some 200 ∧ q.heap 200 = none) ∧
    runCalls 9 (removeLast ++ [.save 300 ⟨3, 7, 0⟩]) emptyQueue = none := by
  exact ⟨⟨_, rfl, rfl, rfl, rfl⟩, rfl⟩

end Ydb.EventQueue
