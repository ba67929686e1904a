import Ydb.Lib.LinkedChain

/-!
# The queue of deferred events

Events that cannot be handled at once wait in a linked list with pointers to its first and
its last node. They are saved at the end and popped at the beginning; the oldest event of
a handler can be removed, and all events can be. A node that was freed must not be used.
-/

namespace Ydb.EventQueue

open Lib

variable {η : Type} [DecidableEq η]

/-! ## The queue -/

/-- What is saved of an event. -/
structure XferEvent (η : Type) where
  outofband : Int
  set_fn : η
  param_val : Int
deriving DecidableEq

/-- A node of the list. -/
structure save_xfer_entry (η : Type) where
  next : Option Nat
  event : XferEvent η

/-- The nodes that are allocated, by address, and the two pointers. -/
structure XferQueue (η : Type) where
  heap : Nat → Option (save_xfer_entry η)
  save_xfer_root : Option Nat
  save_xfer_tail : Option Nat

/-- The heap with one cell written. -/
def writeNode (heap : Nat → Option (save_xfer_entry η)) (a : Nat) (node : Option (save_xfer_entry η)) :
    Nat → Option (save_xfer_entry η) :=
  fun b => if b = a then node else heap b

/-- Save an event in the node allocated at `new_node`. Where a node that is used is not allocated, there is
no result. -/
def save_xfer_queue_entry (q : XferQueue η) (new_node : Nat) (event : XferEvent η) : Option (XferQueue η) :=
  let heap := writeNode q.heap new_node (some ⟨none, event⟩)
  match q.save_xfer_root with
  | none => some ⟨heap, some new_node, some new_node⟩
  | some _ => do
    let tail ← q.save_xfer_tail
    let node ← heap tail
    some ⟨writeNode heap tail (some { node with next := some new_node }), q.save_xfer_root, some new_node⟩

/-- Pop an event, if there is one. -/
def pop_reset_xfer_entry (q : XferQueue η) : Option (Option (XferEvent η) × XferQueue η) :=
  match q.save_xfer_root with
  | none => some (none, q)
  | some head_save => do
    let node ← q.heap head_save
    let tail := if some head_save = q.save_xfer_tail then none else q.save_xfer_tail
    some (some node.event, ⟨writeNode q.heap head_save none, node.next, tail⟩)

/-- The oldest node with a handler, and the node before it, in so many turns. -/
def find_queue_entry (heap : Nat → Option (save_xfer_entry η)) (set_fn : η) :
    Nat → Option Nat → Option Nat → Option (Option Nat × Option Nat)
  | 0, _, _ => none
  | _ + 1, none, qprev => some (none, qprev)
  | turns + 1, some qc, qprev => do
    let node ← heap qc
    if node.event.set_fn = set_fn then some (some qc, qprev)
    else find_queue_entry heap set_fn turns node.next (some qc)

/-- Unlink and free the first node with `set_fn`. -/
def remove_queue_entry (turns : Nat) (q : XferQueue η) (set_fn : η) : Option (XferQueue η) :=
  match find_queue_entry q.heap set_fn turns q.save_xfer_root none with
  | none => none
  | some (none, _) => some q
  | some (some qp, none) => do
    let node ← q.heap qp
    some { q with heap := writeNode q.heap qp none, save_xfer_root := node.next }
  | some (some qp, some qprev) => do
    let node ← q.heap qp
    let before ← q.heap qprev
    let heap := writeNode q.heap qprev (some { before with next := node.next })
    some { q with heap := writeNode heap qp none }

/-- Free the nodes from `head_save` on, in so many turns. -/
def freeLoop : Nat → (Nat → Option (save_xfer_entry η)) → Option Nat → Option (Nat → Option (save_xfer_entry η))
  | 0, _, _ => none
  | _ + 1, heap, none => some heap
  | turns + 1, heap, some head_save => do
    let node ← heap head_save
    freeLoop turns (writeNode heap head_save none) node.next

/-- Free all nodes. -/
def empty_queue (turns : Nat) (q : XferQueue η) : Option (XferQueue η) := do
  let heap ← freeLoop turns q.heap q.save_xfer_root
  some ⟨heap, none, none⟩

/-! ## Runs -/

/-- A call; a save comes with the node that is allocated for it. -/
inductive QueueCall (η : Type)
  | save (new_node : Nat) (event : XferEvent η)
  | pop
  | remove (set_fn : η)
  | empty

/-- What a call returns, and the queue after it. -/
def call (turns : Nat) (q : XferQueue η) : QueueCall η → Option (Option (XferEvent η) × XferQueue η)
  | .save new_node event => (save_xfer_queue_entry q new_node event).map fun q => (none, q)
  | .pop => pop_reset_xfer_entry q
  | .remove set_fn => (remove_queue_entry turns q set_fn).map fun q => (none, q)
  | .empty => (empty_queue turns q).map fun q => (none, q)

/-- The events that are popped by a sequence of calls, and the queue after it. -/
def runCalls (turns : Nat) : List (QueueCall η) → XferQueue η → Option (List (XferEvent η) × XferQueue η)
  | [], q => some ([], q)
  | c :: calls, q => do
    let (popped, q) ← call turns q c
    let (others, q) ← runCalls turns calls q
    some (popped.toList ++ others, q)

/-- No node, and no pointers. -/
def emptyQueue : XferQueue η := ⟨fun _ => none, none, none⟩

end Ydb.EventQueue
