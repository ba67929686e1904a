import Ydb.Lib.MachineWords
import Ydb.Lib.TreePath
import Ydb.LocalTreeKeys

/-!
# The profiler tree

The M profiler counts executions of lines in a height-balanced tree. An insertion goes down from
the root, and remembers the last node that is not even. It marks the nodes it passes, and those
beside them, with hints, which lead the update of the balance down again afterwards; hints of
earlier insertions stay in the other nodes.

A subtree is passed by value; a pointer to one of its links is the frames above it.
-/

namespace Ydb.ProfilerTree

open Lib BinaryTree

/-- What identifies a line of the code. The line number is an offset in a routine, or one of two
marks below zero. -/
structure trace_entry where
  rout_name : List UInt8
  label_name : List UInt8
  line_num : Int
  least : -2 ≤ line_num
  most : line_num < 2 ^ 31 - 2

/-- Whether a node was in the path. -/
inductive Hint where
  | IN_PATH
  | NOT_IN_PATH
  | IS_INS_NODE
deriving DecidableEq, Repr

open Hint

/-- A node and its address. `NEITHER` is an even tilt; `loop_link` has the FOR nodes. -/
structure mprof_node where
  addr : Nat
  e : trace_entry
  loop_link : List Nat
  desc_dir : Tilt
  ins_path_hint : Hint

abbrev mprof_tree := BinaryTree mprof_node

/-- A node without children. -/
def new_node (addr : Nat) (arg : trace_entry) : mprof_node where
  addr := addr
  e := arg
  loop_link := []
  desc_dir := .even
  ins_path_hint := NOT_IN_PATH

/-- Compare a node with an argument, by name and then by line. -/
def mprof_tree_compare (node : mprof_node) (arg : trace_entry) : Int :=
  let diff := MEMVCMP node.e.rout_name arg.rout_name
  if diff = 0 then
    let diff := MEMVCMP node.e.label_name arg.label_name
    if diff = 0 then
      let diff := int4Value (arg.line_num - node.e.line_num)
      if diff ≠ 0 then if 0 < diff then 1 else -1 else diff
    else diff
  else diff

/-- `EQUAL < diff ? RIGHT : LEFT`. -/
def direction (diff : Int) : Side := if 0 < diff then .right else .left

/-! ## Walking -/

/-- A visit of a node, or of a FOR node behind it. -/
inductive Visit where
  | node (addr : Nat)
  | loop (addr : Nat)
deriving DecidableEq, Repr

/-- A node and its chain of loops. -/
def visits (node : mprof_node) : List Visit := .node node.addr :: node.loop_link.map .loop

/-- The nodes in order, with their loops. -/
def mprof_tree_walk : mprof_tree → List Visit
  | .nil => []
  | .node a l r => mprof_tree_walk l ++ (visits a ++ mprof_tree_walk r)

/-! ## Rebalancing -/

/-- The node and its subtrees, the one on the side first. -/
def links (s : Side) : mprof_tree → Option (mprof_node × mprof_tree × mprof_tree)
  | .nil => none
  | .node a l r => some (a, s.pick l r, s.pick r l)

/-- The side that the hints point to. -/
def hintedSide (left : mprof_tree) : Side :=
  match left with
  | .nil => .right
  | .node b _ _ => if b.ins_path_hint = NOT_IN_PATH then .right else .left

/-- Mark the nodes on the path as uneven. -/
def mprof_tree_rebalance_path : mprof_tree → mprof_tree
  | .nil => .nil
  | .node a l r =>
    if a.ins_path_hint = IS_INS_NODE then .node a l r
    else
      match hintedSide l with
      | .left => .node { a with desc_dir := .toward .left } (mprof_tree_rebalance_path l) r
      | .right => .node { a with desc_dir := .toward .right } l (mprof_tree_rebalance_path r)

/-- A single rotation, and the place of the outer subtree. -/
def rotate_2 (path_top : mprof_tree) (index : Side) : Option (List (Frame mprof_node) × mprof_tree) := do
  let (B, below, A) ← links index path_top
  let (D, E, C) ← links index below
  return ([⟨{ D with desc_dir := .even }, index, branch index { B with desc_dir := .even } C A⟩], E)

/-- A double rotation, and the place of the subtree that holds the insertion; none if the node at
the top is the inserted one. -/
def rotate_3 (path_top : mprof_tree) (index : Side) (third : Tilt) :
    Option (mprof_tree ⊕ (List (Frame mprof_node) × mprof_tree)) := do
  let (B, below, A) ← links index path_top
  let (F, G, inner) ← links index below
  let (D, E, C) ← links index inner
  let D := { D with desc_dir := .even }
  match third with
  | .even =>
    return .inl (branch index D (branch index { F with desc_dir := .even } G E)
      (branch index { B with desc_dir := .even } C A))
  | .toward side =>
    if side = index then
      return .inr ([⟨{ F with desc_dir := .even }, index.other, G⟩,
        ⟨D, index, branch index { B with desc_dir := .toward index.other } C A⟩], E)
    else
      return .inr ([⟨{ B with desc_dir := .even }, index, A⟩,
        ⟨D, index.other, branch index { F with desc_dir := .toward index } G E⟩], C)

/-- The subtree that `path_top` points to, balanced. -/
def mprof_tree_rebalance (path_top : mprof_tree) (arg : trace_entry) : Option mprof_tree := do
  let path ← top path_top
  if path.desc_dir = .even then return mprof_tree_rebalance_path path_top
  else
    let first := direction (mprof_tree_compare path arg)
    let (_, near, far) ← links first path_top
    if path.desc_dir ≠ .toward first then
      return branch first { path with desc_dir := .even } (mprof_tree_rebalance_path near) far
    else
      let below ← top near
      let second := direction (mprof_tree_compare below arg)
      if first = second then
        let (up, path) ← rotate_2 path_top first
        return plug up (mprof_tree_rebalance_path path)
      else
        let (_, grandchild, _) ← links second near
        let path ← top grandchild
        let diff := mprof_tree_compare path arg
        let third := if diff = 0 then Tilt.even else .toward (direction diff)
        match ← rotate_3 path_top first third with
        | .inl whole => return whole
        | .inr (up, path) => return plug up (mprof_tree_rebalance_path path)

/-! ## Inserting -/

/-- The sibling is not in the insertion path. -/
def markSibling : mprof_tree → mprof_tree
  | .nil => .nil
  | .node b l r => .node { b with ins_path_hint := NOT_IN_PATH } l r

/-- Where the loop ends: the frames above, how many of them are above `path_top`, and the node. -/
structure Descent where
  up : List (Frame mprof_node)
  path_top : Nat
  tree : mprof_tree

/-- `while (tree)`, down to the node that matches or to a NULL link. -/
def descend (arg : trace_entry) : mprof_tree → List (Frame mprof_node) → Nat → Descent
  | .nil, up, path_top => { up := up, path_top := path_top, tree := .nil }
  | .node a l r, up, path_top =>
    let a := { a with ins_path_hint := IN_PATH }
    let diff := mprof_tree_compare a arg
    if diff = 0 then { up := up, path_top := path_top, tree := .node a l r }
    else
      let path_top := if a.desc_dir ≠ .even then up.length else path_top
      match direction diff with
      | .left => descend arg l (⟨a, .left, markSibling r⟩ :: up) path_top
      | .right => descend arg r (⟨a, .right, markSibling l⟩ :: up) path_top

/-- The tree, and the address of the node that is returned. A new node gets the address `fresh`. -/
def mprof_tree_insert (tree : mprof_tree) (arg : trace_entry) (fresh : Nat) : Option (mprof_tree × Nat) :=
  let found := descend arg tree [] 0
  match found.tree with
  | .nil => do
    let node := { new_node fresh arg with ins_path_hint := IS_INS_NODE }
    let inner := found.up.take (found.up.length - found.path_top)
    let outer := found.up.drop (found.up.length - found.path_top)
    let balanced ← mprof_tree_rebalance (plug inner (.node node .nil .nil)) arg
    return (plug outer balanced, fresh)
  | .node a l r => some (plug found.up (.node a l r), a.addr)

end Ydb.ProfilerTree
