import Ydb.Lib.TreePath
import Ydb.Mval

/-!
# The tree of a local variable

The nodes of one subscript level of a local variable form an AVL tree. Nodes are
kept in a heap and linked by addresses, with a pointer to the parent beside the
two children. Each node stores which of its subtrees is higher and in which
direction the last descent left it; insertion and deletion rebalance along these
directions. The tree itself keeps a clue, the node at which the last lookup ended
together with the bounds of the keys below it.

A loop that follows pointers takes a bound on its rounds. A null dereference and
an exhausted bound both give `none`. The `MV_INT` and float layouts of a numeric
node share storage with the string layout; here they are separate fields, which
no routine reads without having written them, apart from the sign and the digits
of an integer zero, which keep what the slot held.
-/

namespace Ydb

open Lib

/-! ## Keys -/

/-- A subscript to look up. `canonical` is the `MV_CANONICAL` bit of `mvtype`,
which only local variable code sets: the subscript is a number. -/
structure TreeKeySubscr extends Mval where
  canonical : Bool
deriving DecidableEq, Repr

abbrev Addr := Nat

/-- A node with its value, its key and its links. `sgn` and `e` of a number are
`key_sgn` and `key_e`; a string key is the `key_len` bytes at `key_addr`. -/
structure LvTreeNode where
  v : Mval
  sbs_child : Option Addr
  key_mvtype : MvType
  key_canonical : Bool
  balance : Tilt
  descent_dir : Side
  key_sgn : Bool
  key_e : Nat
  /-- The float fields of an `MV_INT` key are filled in. -/
  key_iconv : Bool
  key_m0 : Int
  key_m1 : Int
  key_str : List UInt8
  avl_left : Option Addr
  avl_right : Option Addr
  avl_parent : Option Addr
deriving DecidableEq, Repr

def EXP_INT_UNDERF : Nat := 59

/-- Count the table entries that are not above the number. -/
def countPowers (m1 : Nat) : Nat → Nat → Nat
  | 0, exp => exp
  | rounds + 1, exp => if ten_pwr exp ≤ m1 then countPowers m1 rounds (exp + 1) else exp

/-- The number 0. -/
def literal_zero : Mval := ⟨⟨true, true, true, false, false⟩, false, 0, 0, 0, [Ascii.zero]⟩

/-- The float form of an `MV_INT` value. -/
def promote (v : Mval) : Mval :=
  if v.m1 = 0 then literal_zero
  else
    let m1 := v.m1.natAbs
    let exp := countPowers m1 NUM_DEC_DG_1L 0
    { v with
      mvtype := ⟨true, false, false, false, false⟩
      sgn := decide (v.m1 < 0)
      e := EXP_INT_UNDERF + exp
      m0 := 0
      m1 := m1 * ten_pwr (NUM_DEC_DG_1L - exp) }

/-- Fill in the float fields of an integer node. An integer zero gets exponent
zero and keeps the sign and digits it has. -/
def lvAvlTreeNodeFltConv (fltNode : LvTreeNode) : LvTreeNode :=
  if fltNode.key_m0 = 0 then { fltNode with key_e := 0, key_iconv := true }
  else
    let int_m1 := fltNode.key_m0.natAbs
    let int_exp := countPowers int_m1 NUM_DEC_DG_1L 0
    { fltNode with
      key_sgn := decide (fltNode.key_m0 < 0)
      key_m1 := int_m1 * ten_pwr (NUM_DEC_DG_1L - int_exp)
      key_e := int_exp + EXP_INT_UNDERF
      key_iconv := true }

/-- The part of the numeric comparisons in which both sides are floats: sign,
exponent, then the two groups of digits. The low digits of an integer node are
zero. -/
def compareFloats (a : Mval) (b : LvTreeNode) : Int :=
  let a_sgn : Int := if a.sgn then -1 else 1
  let b_sgn : Int := if b.key_sgn then -1 else 1
  if a_sgn ≠ b_sgn then a_sgn
  else
    let exp_diff : Int := a.e - b.key_e
    if exp_diff ≠ 0 then exp_diff * a_sgn
    else
      let m1_diff := a.m1 - b.key_m1
      if m1_diff ≠ 0 then m1_diff * a_sgn
      else if a.m1 = 0 then 0
      else
        let b_m0 := if b.key_mvtype.int then 0 else b.key_m0
        (a.m0 - b_m0) * a_sgn

/-- Compare an integer subscript with a node's key. -/
def LV_AVL_TREE_INTKEY_CMP (a : TreeKeySubscr) (b : LvTreeNode) : LvTreeNode × Int :=
  if b.key_mvtype.int then (b, a.m1 - b.key_m0)
  else if b.key_canonical then (b, compareFloats (promote a.toMval) b)
  else (b, -1)

/-- Compare a numeric subscript that is not an integer with a node's key. The
node is changed when its key is an integer met by such a comparison for the first
time. -/
def LV_AVL_TREE_NUMKEY_CMP (a : TreeKeySubscr) (b : LvTreeNode) : LvTreeNode × Int :=
  if b.key_canonical then
    let b := if b.key_mvtype.int && !b.key_iconv then lvAvlTreeNodeFltConv b else b
    (b, compareFloats a.toMval b)
  else (b, -1)

/-- The sign of the first difference of two strings of one length. -/
def memcmp : List UInt8 → List UInt8 → Int
  | x :: xs, y :: ys => if x = y then memcmp xs ys else x.toNat - y.toNat
  | _, _ => 0

/-- Compare bytes, then lengths. -/
def MEMVCMP (left right : List UInt8) : Int :=
  let minLen := min left.length right.length
  let onLength : Int :=
    if left.length < right.length then -1 else if right.length < left.length then 1 else 0
  let onBytes := memcmp (left.take minLen) (right.take minLen)
  if onBytes = 0 then onLength else onBytes

/-- Compare a string subscript with a node's key; `$ZYSQLNULL` is the last of all. -/
def LV_AVL_TREE_STRKEY_CMP (a : TreeKeySubscr) (b : LvTreeNode) : LvTreeNode × Int :=
  if b.key_canonical then (b, 1)
  else if !b.key_mvtype.sqlnull then
    if !a.mvtype.sqlnull then (b, MEMVCMP a.str b.key_str) else (b, 1)
  else (b, if a.mvtype.sqlnull then 0 else -1)

/-! ## Nodes in memory -/

namespace LvTreeNode

/-- The child on a side. -/
def child (n : LvTreeNode) (s : Side) : Option Addr := s.pick n.avl_left n.avl_right

/-- Assign a child. -/
def setChild (n : LvTreeNode) (s : Side) (c : Option Addr) : LvTreeNode :=
  match s with
  | .left => { n with avl_left := c }
  | .right => { n with avl_right := c }

/-- Assign the parent. -/
def setParent (n : LvTreeNode) (p : Option Addr) : LvTreeNode := { n with avl_parent := p }

/-- Assign the balance. -/
def setBalance (n : LvTreeNode) (balance : Tilt) : LvTreeNode := { n with balance := balance }

/-- Assign the direction. -/
def setDescent (n : LvTreeNode) (dir : Side) : LvTreeNode := { n with descent_dir := dir }

end LvTreeNode

abbrev Heap := Addr → LvTreeNode

/-- Assign to fields of one node. -/
def Heap.modify (h : Heap) (a : Addr) (f : LvTreeNode → LvTreeNode) : Heap :=
  Function.update h a (f (h a))

/-- Assign the parent of a node if there is one. -/
def Heap.reparent (h : Heap) (a : Option Addr) (p : Option Addr) : Heap :=
  match a with
  | none => h
  | some a => h.modify a (·.setParent p)

/-- The clue left by the last lookup. -/
structure TreeSrchStatus where
  lastNodeLookedUp : Option Addr
  lastNodeMin : Option Addr
  lastNodeMax : Option Addr
deriving DecidableEq, Repr

/-- The root, the height and the clue. -/
structure LvTree where
  avl_height : Nat
  avl_root : Option Addr
  lastLookup : TreeSrchStatus
deriving DecidableEq, Repr

/-- A tree with the memory its nodes are in. -/
structure LocalTree where
  heap : Heap
  lvt : LvTree

/-- Initialise a tree in a slot. The bounds of the clue keep what the slot held. -/
def LV_TREE_CREATE (slot : LvTree) : LvTree :=
  { slot with
    avl_height := 0
    avl_root := none
    lastLookup := { slot.lastLookup with lastNodeLookedUp := none } }

/-! ## Lookup -/

/-- Compare with the key of the node at an address. -/
def compareAt (cmp : LvTreeNode → LvTreeNode × Int) (h : Heap) (a : Addr) : Heap × Int :=
  let (node, result) := cmp (h a)
  (Function.update h a node, result)

/-- How a descent ends: the node with the key if there is one, the node for the
clue, the last parent and the bounds below it. -/
structure Descent where
  heap : Heap
  node : Option Addr
  lastNodeLookedUp : Addr
  parent : Addr
  lastNodeMin : Option Addr
  lastNodeMax : Option Addr

/-- The loop of the full traversal. -/
def descend (cmp : LvTreeNode → LvTreeNode × Int) :
    Nat → Heap → (node parent : Addr) → (lastNodeMin lastNodeMax : Option Addr) → Option Descent
  | 0, _, _, _, _, _ => none
  | rounds + 1, h, node, parent, lastNodeMin, lastNodeMax =>
    let (h, order) := compareAt cmp h node
    if order = 0 then some ⟨h, some node, node, parent, lastNodeMin, lastNodeMax⟩
    else
      let dir := if order < 0 then .left else .right
      let h := h.modify node (·.setDescent dir)
      match (h node).child dir with
      | none => some ⟨h, none, node, node, lastNodeMin, lastNodeMax⟩
      | some nextNode =>
        -- The bounds change only when the descent goes on.
        descend cmp rounds h nextNode node (dir.pick lastNodeMin (some node))
          (dir.pick (some node) lastNodeMax)

/-- The fresh traversal from the root, which also sets the clue. The result is
the node found, and the parent of the place where a new node belongs. -/
def traverse (cmp : LvTreeNode → LvTreeNode × Int) (t : LocalTree) :
    Option (LocalTree × Option Addr × Option Addr) :=
  match t.lvt.avl_root with
  | none => some (t, none, none)
  | some root => do
    let end' ← descend cmp t.lvt.avl_height t.heap root root none none
    let lastLookup : TreeSrchStatus :=
      ⟨some end'.lastNodeLookedUp, end'.lastNodeMin, end'.lastNodeMax⟩
    some (⟨end'.heap, { t.lvt with lastLookup := lastLookup }⟩, end'.node, some end'.parent)

/-- The body that the lookups of the three kinds of subscript share: try the clue,
then traverse. The two directions of the clue's check mirror each other.
`lookupParent` is what the caller's pointer holds before. -/
def lookupWith (cmp : LvTreeNode → LvTreeNode × Int) (t : LocalTree)
    (lookupParent : Option Addr) : Option (LocalTree × Option Addr × Option Addr) :=
  match t.lvt.lastLookup.lastNodeLookedUp with
  | none => traverse cmp t
  | some clue =>
    let (h, order) := compareAt cmp t.heap clue
    let t := { t with heap := h }
    if order = 0 then some (t, some clue, lookupParent)
    else
      let dir : Side := if 0 < order then .right else .left
      let missed (h : Heap) : LocalTree × Option Addr × Option Addr :=
        ({ t with heap := h.modify clue (·.setDescent dir) }, none, some clue)
      if (h clue).child dir = none then
        match dir.pick t.lvt.lastLookup.lastNodeMin t.lvt.lastLookup.lastNodeMax with
        | none => some (missed h)
        | some bound =>
          let (h, order) := compareAt cmp h bound
          if order = 0 then some ({ t with heap := h }, some bound, lookupParent)
          else if dir.pick (decide (0 < order)) (decide (order < 0)) then some (missed h)
          else traverse cmp { t with heap := h }
      else traverse cmp t

/-- Look up an integer. -/
def lvAvlTreeLookupInt (t : LocalTree) (key : TreeKeySubscr) (lookupParent : Option Addr) :
    Option (LocalTree × Option Addr × Option Addr) :=
  lookupWith (LV_AVL_TREE_INTKEY_CMP key) t lookupParent

/-- Look up any number. -/
def lvAvlTreeLookupNum (t : LocalTree) (key : TreeKeySubscr) (lookupParent : Option Addr) :
    Option (LocalTree × Option Addr × Option Addr) :=
  lookupWith (LV_AVL_TREE_NUMKEY_CMP key) t lookupParent

/-- Look up a string. -/
def lvAvlTreeLookupStr (t : LocalTree) (key : TreeKeySubscr) (lookupParent : Option Addr) :
    Option (LocalTree × Option Addr × Option Addr) :=
  lookupWith (LV_AVL_TREE_STRKEY_CMP key) t lookupParent

/-- Look up a key, by the clue first. -/
def lvAvlTreeLookup (t : LocalTree) (key : TreeKeySubscr) (lookupParent : Option Addr) :
    Option (LocalTree × Option Addr × Option Addr) :=
  if key.canonical then
    if key.mvtype.int then lvAvlTreeLookupInt t key lookupParent
    else lvAvlTreeLookupNum t key lookupParent
  else lvAvlTreeLookupStr t key lookupParent

/-! ## Rotations -/

/-- Rotate the anchor, the child on the heavy side, over the node to rebalance. -/
def lvAvlTreeSingleRotation (h : Heap) (rebalanceNode anchorNode : Addr)
    (balanceFactor : Side) : Heap × Addr :=
  let node := (h anchorNode).child balanceFactor.other
  let h := h.modify rebalanceNode (·.setChild balanceFactor node)
  let h := h.modify anchorNode (·.setChild balanceFactor.other (some rebalanceNode))
  let h := h.reparent node (some rebalanceNode)
  let h := h.modify rebalanceNode (·.setParent (some anchorNode))
  if (h anchorNode).balance ≠ .even then
    let h := h.modify rebalanceNode (·.setBalance .even)
    (h.modify anchorNode (·.setBalance .even), anchorNode)
  else (h.modify anchorNode (·.setBalance (.toward balanceFactor.other)), anchorNode)

/-- Rotate the anchor's inner child over the anchor and the node to rebalance. -/
def lvAvlTreeDoubleRotation (h : Heap) (rebalanceNode anchorNode : Addr)
    (balanceFactor : Side) : Option (Heap × Addr) := do
  let newRoot ← (h anchorNode).child balanceFactor.other
  let rebalanceChild := (h newRoot).child balanceFactor.other
  let h := h.modify rebalanceNode (·.setChild balanceFactor rebalanceChild)
  let anchorChild := (h newRoot).child balanceFactor
  let h := h.modify anchorNode (·.setChild balanceFactor.other anchorChild)
  let h := h.modify newRoot (·.setChild balanceFactor (some anchorNode))
  let h := h.modify newRoot (·.setChild balanceFactor.other (some rebalanceNode))
  let h := h.reparent rebalanceChild (some rebalanceNode)
  let h := h.reparent anchorChild (some anchorNode)
  let h := h.modify anchorNode (·.setParent (some newRoot))
  let h := h.modify rebalanceNode (·.setParent (some newRoot))
  let balance := (h newRoot).balance
  let forRebalance := if balance = .toward balanceFactor then .toward balanceFactor.other else .even
  let forAnchor := if balance = .toward balanceFactor.other then .toward balanceFactor else .even
  let h := h.modify rebalanceNode (·.setBalance forRebalance)
  let h := h.modify anchorNode (·.setBalance forAnchor)
  some (h.modify newRoot (·.setBalance .even), newRoot)

/-- Point what pointed at a node, its parent in the direction of the last descent
or the root pointer, at another. -/
def LocalTree.replaceChild (t : LocalTree) (parent child : Option Addr) : LocalTree :=
  match parent with
  | none => { t with lvt := { t.lvt with avl_root := child } }
  | some p => { t with heap := t.heap.modify p fun n => n.setChild n.descent_dir child }

/-! ## Insertion -/

/-- The node for a key in a fresh slot. Its value is left to the caller, and its
direction to the next descent. -/
def newNode (slot : LvTreeNode) (key : TreeKeySubscr) (parent : Option Addr) : LvTreeNode :=
  let node := { slot with
    sbs_child := none
    avl_left := none
    avl_right := none
    avl_parent := parent
    balance := .even }
  if key.canonical then
    let node := { node with
      key_mvtype := ⟨key.mvtype.nm, key.mvtype.int, false, false, false⟩
      key_canonical := true }
    if key.mvtype.int then { node with key_m0 := key.m1, key_iconv := false }
    else { node with key_sgn := key.sgn, key_e := key.e, key_m0 := key.m0, key_m1 := key.m1 }
  else
    { node with
      key_mvtype := ⟨false, false, true, false, key.mvtype.sqlnull⟩
      key_canonical := false
      key_str := key.str }

/-- Climb over balanced nodes, tilting each towards the new node, and stop below
the root or at the first node that was tilted. -/
def tiltPath (t_root : Option Addr) : Nat → Heap → Addr → Option (Heap × Addr)
  | 0, _, _ => none
  | rounds + 1, h, tmpNode =>
    if t_root = some tmpNode then some (h, tmpNode)
    else if (h tmpNode).balance ≠ .even then some (h, tmpNode)
    else
      let h := h.modify tmpNode fun n => n.setBalance (.toward n.descent_dir)
      match (h tmpNode).avl_parent with
      | none => none
      | some tmpNode => tiltPath t_root rounds h tmpNode

/-- Rebalance where the climb stopped. -/
def rebalanceInsert (t : LocalTree) (rebalanceNode : Addr) : Option LocalTree := do
  let balanceFactor := (t.heap rebalanceNode).descent_dir
  let anchor := (t.heap rebalanceNode).child balanceFactor
  let curBalance := (t.heap rebalanceNode).balance
  if curBalance = .even then
    let heap := t.heap.modify rebalanceNode (·.setBalance (.toward balanceFactor))
    some { heap := heap, lvt := { t.lvt with avl_height := t.lvt.avl_height + 1 } }
  else if curBalance = .toward balanceFactor.other then
    some { t with heap := t.heap.modify rebalanceNode (·.setBalance .even) }
  else
    let rebalanceNodeParent := (t.heap rebalanceNode).avl_parent
    let anchorNode ← anchor
    let (h, tmpNode) ←
      if (t.heap anchorNode).balance = .toward balanceFactor then
        some (lvAvlTreeSingleRotation t.heap rebalanceNode anchorNode balanceFactor)
      else lvAvlTreeDoubleRotation t.heap rebalanceNode anchorNode balanceFactor
    let h := h.modify tmpNode (·.setParent rebalanceNodeParent)
    some ({ t with heap := h }.replaceChild rebalanceNodeParent (some tmpNode))

/-- Insert a node for the key below the parent that a failed lookup returned.
`node` is the address of a free slot. -/
def lvAvlTreeNodeInsert (t : LocalTree) (key : TreeKeySubscr) (parent : Option Addr)
    (node : Addr) : Option LocalTree := do
  let h : Heap := Function.update t.heap node (newNode (t.heap node) key parent)
  match parent with
  | none =>
    some { heap := h
           lvt := { t.lvt with
             avl_root := some node
             avl_height := 1
             lastLookup := ⟨some node, none, none⟩ } }
  | some p =>
    let dir := (h p).descent_dir
    let h := h.modify p (·.setChild dir (some node))
    let clue := t.lvt.lastLookup
    let lastLookup : TreeSrchStatus :=
      ⟨some node, dir.pick clue.lastNodeMin (some p), dir.pick (some p) clue.lastNodeMax⟩
    let (h, rebalanceNode) ← tiltPath t.lvt.avl_root t.lvt.avl_height h p
    rebalanceInsert { heap := h, lvt := { t.lvt with lastLookup := lastLookup } } rebalanceNode

/-! ## Deletion -/

/-- Walk to the least node of a subtree, leaving the directions pointed left. -/
def walkLeft : Nat → Heap → Addr → Option (Heap × Addr)
  | 0, _, _ => none
  | rounds + 1, h, next =>
    match (h next).avl_left with
    | none => some (h, next)
    | some left => walkLeft rounds (h.modify next (·.setDescent .left)) left

/-- Take the successor out of its place in the right subtree, and return the lowest
node whose subtree became lower. Nothing moves when the successor is the right
child. -/
def takeSuccessor (h : Heap) (node nodeRight next nextParent : Addr) (nextRight : Option Addr) :
    Heap × Addr :=
  if nextParent ≠ node then
    let h := h.modify nextParent fun n => n.setChild n.descent_dir nextRight
    let h := h.reparent nextRight (some nextParent)
    let h := h.modify next (·.setChild .right (some nodeRight))
    (h.modify nodeRight (·.setParent (some next)), nextParent)
  else (h, next)

/-- Take a node out of the tree and return the lowest node whose subtree became
lower. A node with a right subtree is replaced by its successor. -/
def unlinkNode (t : LocalTree) (node : Addr) : Option (LocalTree × Option Addr) :=
  let nodeLeft := (t.heap node).avl_left
  let nodeParent := (t.heap node).avl_parent
  match (t.heap node).avl_right with
  | none =>
    let t := t.replaceChild nodeParent nodeLeft
    some ({ t with heap := t.heap.reparent nodeLeft nodeParent }, nodeParent)
  | some nodeRight => do
    let (h, next) ← walkLeft t.lvt.avl_height t.heap nodeRight
    let nextRight := (h next).avl_right
    let nextParent ← (h next).avl_parent
    let (h, balanceThisNode) := takeSuccessor h node nodeRight next nextParent nextRight
    let h := h.modify next (·.setChild .left nodeLeft)
    let h := h.reparent nodeLeft (some next)
    let h := h.modify next (·.setParent nodeParent)
    let h := h.modify next (·.setBalance (h node).balance)
    let h := h.modify next (·.setDescent .right)
    some ({ t with heap := h }.replaceChild nodeParent (some next), some balanceThisNode)

/-- The balancing act: the subtree of each node in turn became lower on the side of
its direction. -/
def balanceUp : Nat → LocalTree → Option Addr → Option LocalTree
  | 0, _, _ => none
  | _ + 1, t, none => some { t with lvt := { t.lvt with avl_height := t.lvt.avl_height - 1 } }
  | rounds + 1, t, some balanceThisNode => do
    let balanceFactor := (t.heap balanceThisNode).descent_dir
    let curNodeBalance := (t.heap balanceThisNode).balance
    if curNodeBalance = .even then
      some { t with
        heap := t.heap.modify balanceThisNode (·.setBalance (.toward balanceFactor.other)) }
    else
      let nextBalanceThisNode := (t.heap balanceThisNode).avl_parent
      if curNodeBalance = .toward balanceFactor then
        let heap := t.heap.modify balanceThisNode (·.setBalance .even)
        balanceUp rounds { t with heap := heap } nextBalanceThisNode
      else
        let balanceFactor := balanceFactor.other
        let anchorNode ← (t.heap balanceThisNode).child balanceFactor
        let anchorBalance := (t.heap anchorNode).balance
        let (h, newRoot) ←
          if anchorBalance = .even ∨ anchorBalance = .toward balanceFactor then
            some (lvAvlTreeSingleRotation t.heap balanceThisNode anchorNode balanceFactor)
          else lvAvlTreeDoubleRotation t.heap balanceThisNode anchorNode balanceFactor
        let h := h.modify newRoot (·.setParent nextBalanceThisNode)
        let t := { t with heap := h }.replaceChild nextBalanceThisNode (some newRoot)
        if anchorBalance = .even then some t else balanceUp rounds t nextBalanceThisNode

/-- Delete a node to which the directions of its ancestors lead. The clue is
forgotten. -/
def lvAvlTreeNodeDelete (t : LocalTree) (node : Addr) : Option LocalTree := do
  let (t, balanceThisNode) ← unlinkNode t node
  let t ← balanceUp (t.lvt.avl_height + 1) t balanceThisNode
  let lastLookup := { t.lvt.lastLookup with lastNodeLookedUp := none }
  some { t with lvt := { t.lvt with lastLookup := lastLookup } }

/-- Point the directions of all ancestors towards a node. -/
def pointAncestors : Nat → Heap → Addr → Option Heap
  | 0, _, _ => none
  | rounds + 1, h, curNode =>
    match (h curNode).avl_parent with
    | none => some h
    | some parentNode =>
      let dir := if (h parentNode).avl_left = some curNode then .left else .right
      pointAncestors rounds (h.modify parentNode (·.setDescent dir)) parentNode

/-- Point the ancestors of a node at it. -/
def lvAvlTreeNodePrepareForDelete (t : LocalTree) (node : Addr) : Option LocalTree := do
  let h ← pointAncestors (t.lvt.avl_height + 1) t.heap node
  some { t with heap := h }

end Ydb
