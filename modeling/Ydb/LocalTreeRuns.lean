import Ydb.LocalTreeDelete

/-!
# Runs of the tree routines

A program that uses a tree of local variable nodes calls the routines in a fixed
way: it inserts a key whose lookup just failed, below the parent that the lookup
returned, and it deletes a node that it just looked up or prepared for deletion.
Between the calls it assigns values to the nodes, and other trees use other
nodes. In every state that such calls reach the tree is a balanced search tree,
every permitted call succeeds, and it changes the sequence of entries by exactly
the entry it is about.
-/

namespace Ydb

open Lib

/-- The call that the next one may build on. -/
inductive LastCall where
  | idle
  /-- A lookup found no node for the key and returned the parent of its place. -/
  | missed (key : TreeKeySubscr) (parent : Option Addr)
  | found (node : Addr)
  | prepared (node : Addr)
deriving DecidableEq

/-- A tree and the call before. -/
structure Session where
  tree : LocalTree
  last : LastCall

/-- The calls of a run. -/
inductive Call where
  /-- `lookupParent` is what the caller's variable holds before the call. -/
  | lookup (key : TreeKeySubscr) (lookupParent : Option Addr)
  /-- Insert the key of the failed lookup; `node` is the slot it gets. -/
  | insert (node : Addr)
  | delete
  | prepareForDelete (node : Addr)
  /-- Assignments by the caller and by other trees. -/
  | elsewhere (heap : Heap)

/-- The nodes that the pointers reach from the root. -/
inductive LocalTree.HasNode (t : LocalTree) : Addr → Prop
  | root {a : Addr} (isRoot : t.lvt.avl_root = some a) : HasNode t a
  | child {a b : Addr} (s : Side) (parent : HasNode t a) (isChild : (t.heap a).child s = some b) :
      HasNode t b

/-- The fields that callers assign: the value and the next subscript level. -/
def LvTreeNode.SameButValue (n n' : LvTreeNode) : Prop :=
  n' = { n with v := n'.v, sbs_child := n'.sbs_child }

/-- The calls a program may make. A prepared node is deleted next. -/
def Session.Permits (s : Session) : Call → Prop
  | .lookup key _ => key.Valid ∧ ∀ n, s.last ≠ .prepared n
  | .insert node => (∃ key parent, s.last = .missed key parent) ∧ ¬ s.tree.HasNode node
  | .delete => ∃ n, s.last = .found n ∨ s.last = .prepared n
  | .prepareForDelete node => s.tree.HasNode node ∧ ∀ n, s.last ≠ .prepared n
  | .elsewhere heap => ∀ a, s.tree.HasNode a → (s.tree.heap a).SameButValue (heap a)

/-- What a call does. -/
def Session.step (s : Session) : Call → Option Session
  | .lookup key lookupParent => do
    let (t, node, parent) ← lvAvlTreeLookup s.tree key lookupParent
    match node with
    | some n => some ⟨t, .found n⟩
    | none => some ⟨t, .missed key parent⟩
  | .insert node =>
    match s.last with
    | .missed key parent => do
      let t ← lvAvlTreeNodeInsert s.tree key parent node
      some ⟨t, .idle⟩
    | _ => none
  | .delete =>
    match s.last with
    | .found n | .prepared n => do
      let t ← lvAvlTreeNodeDelete s.tree n
      some ⟨t, .idle⟩
    | _ => none
  | .prepareForDelete node => do
    let t ← lvAvlTreeNodePrepareForDelete s.tree node
    some ⟨t, .prepared node⟩
  | .elsewhere heap => some { s with tree := { s.tree with heap := heap } }

/-- The sessions of a tree, from its creation in any memory. -/
inductive Session.Reachable : Session → Prop
  | create (heap : Heap) (slot : LvTree) : Reachable ⟨⟨heap, LV_TREE_CREATE slot⟩, .idle⟩
  | call {s s' : Session} (c : Call) (before : Reachable s) (permitted : s.Permits c)
      (done : s.step c = some s') : Reachable s'

/-- The nodes in order, each with its key, its value and its next level. -/
def LocalTree.entries (t : LocalTree) (T : BinaryTree Addr) :
    List (Addr × LocalSubscript × Mval × Option Addr) :=
  (inorder T).map fun a => (a, (t.heap a).subscript, (t.heap a).v, (t.heap a).sbs_child)

/-- The node looked up last has ancestors that point towards it. Only while a
prepared deletion is pending, the clue is out of date. -/
def Session.PointsAtLast (s : Session) (T : BinaryTree Addr) : Prop :=
  (∀ n, s.last = .found n ∨ s.last = .prepared n →
    Leads (fun a => (s.tree.heap a).descent_dir) T n) ∧
  ((∀ n, s.last ≠ .prepared n) → ∀ c, s.tree.lvt.lastLookup.lastNodeLookedUp = some c →
    Leads (fun a => (s.tree.heap a).descent_dir) T c)

/-- The effect of a call on the entries. -/
def Session.Effect (s : Session) (T : BinaryTree Addr) (c : Call) (s' : Session)
    (T' : BinaryTree Addr) : Prop :=
  match c with
  | .lookup key _ => s'.tree.entries T' = s.tree.entries T ∧
    ((∃ n, s'.last = .found n ∧ n ∈ inorder T ∧ (s.tree.heap n).subscript = key.subscript) ∨
      ((∃ parent, s'.last = .missed key parent) ∧
        ∀ a ∈ inorder T, (s.tree.heap a).subscript ≠ key.subscript))
  | .insert node => ∃ key parent front back, s.last = .missed key parent ∧
    s.tree.entries T = front ++ back ∧
    s'.tree.entries T' = front ++ (node, key.subscript, (s.tree.heap node).v, none) :: back
  | .delete => ∃ n front entry back, (s.last = .found n ∨ s.last = .prepared n) ∧ entry.1 = n ∧
    s.tree.entries T = front ++ entry :: back ∧ s'.tree.entries T' = front ++ back
  | .prepareForDelete node => s'.tree.entries T' = s.tree.entries T ∧ s'.last = .prepared node
  | .elsewhere _ => (s'.tree.entries T').map (fun e => (e.1, e.2.1)) =
    (s.tree.entries T).map fun e => (e.1, e.2.1)

/-! ## Nodes -/

theorem LocalTree.not_hasNode {t : LocalTree} (empty : t.lvt.avl_root = none) (a : Addr) :
    ¬ t.HasNode a := by
  intro reached
  induction reached with
  | root isRoot => cases empty.symm.trans isRoot
  | child _ _ _ unreached => exact unreached

/-- A root without children is the only node. -/
theorem LocalTree.eq_of_hasNode {t : LocalTree} {a b : Addr} (root : t.lvt.avl_root = some a)
    (alone : ∀ s, (t.heap a).child s = none) (present : t.HasNode b) : b = a := by
  induction present with
  | root isRoot => exact Option.some.inj (isRoot.symm.trans root)
  | child s _ isChild parent =>
    rw [parent, alone s] at isChild
    cases isChild

theorem LocalTree.WellFormed.hasNode {t : LocalTree} {T : BinaryTree Addr} (wf : t.WellFormed T)
    {a : Addr} : t.HasNode a ↔ a ∈ inorder T := by
  constructor
  · intro reached
    induction reached with
    | root isRoot =>
      rw [wf.root] at isRoot
      exact top_mem isRoot
    | @child a b s _ isChild member =>
      obtain ⟨fs, l, r, rfl⟩ := exists_position member
      obtain ⟨near, far, split⟩ := exists_branch s a l r
      rw [split] at wf ⊢
      rw [wf.child] at isChild
      exact mem_inorder_plug.mpr (.inl (mem_inorder_branch.mpr (.inr (.inl (top_mem isChild)))))
  · -- From a node that is reached, its whole subtree is.
    have below : ∀ (u : BinaryTree Addr) (fs : List (Frame Addr)), T = plug fs u →
        (∀ b, top u = some b → t.HasNode b) → ∀ c ∈ inorder u, t.HasNode c := by
      intro u
      induction u with
      | nil =>
        intro fs _ _ c member
        cases member
      | node b l r leftHypothesis rightHypothesis =>
        intro fs position reached c member
        have here : t.HasNode b := reached b rfl
        have left : (t.heap b).child .left = top l := by
          have atLeft : t.WellFormed (plug fs (branch .left b l r)) := position ▸ wf
          exact atLeft.child
        have right : (t.heap b).child .right = top r := by
          have atRight : t.WellFormed (plug fs (branch .right b r l)) := position ▸ wf
          exact atRight.child
        rw [inorder, List.mem_append, List.mem_cons] at member
        rcases member with inLeft | rfl | inRight
        · exact leftHypothesis (⟨b, .left, r⟩ :: fs) position
            (fun d isTop => .child .left here (left.trans isTop)) c inLeft
        · exact here
        · exact rightHypothesis (⟨b, .right, l⟩ :: fs) position
            (fun d isTop => .child .right here (right.trans isTop)) c inRight
    exact below T [] rfl (fun b isTop => .root (wf.root.trans isTop)) a

/-! ## Assignments elsewhere -/

namespace LvTreeNode.SameButValue

variable {n n' : LvTreeNode} (same : n.SameButValue n')

include same

theorem child (s : Side) : n'.child s = n.child s := by
  rw [same]
  cases s <;> rfl

theorem parent : n'.avl_parent = n.avl_parent := by rw [same]

theorem balance : n'.balance = n.balance := by rw [same]

theorem descent : n'.descent_dir = n.descent_dir := by rw [same]

theorem subscript : n'.subscript = n.subscript := by
  rw [same]
  rfl

theorem validKey (valid : n.ValidKey) : n'.ValidKey := by
  rw [same]
  exact ⟨valid.valid, valid.marked, valid.notInt, valid.converted⟩

end LvTreeNode.SameButValue

section Elsewhere

variable {t : LocalTree} {T : BinaryTree Addr} {heap : Heap}

theorem LocalTree.WellFormed.elsewhere (wf : t.WellFormed T)
    (same : ∀ a ∈ inorder T, (t.heap a).SameButValue (heap a)) :
    ({ t with heap := heap } : LocalTree).WellFormed T where
  root := wf.root
  parentless a isTop := by
    rw [(same a (top_mem isTop)).parent]
    exact wf.parentless a isTop
  linked := wf.linked.of_sameLinks wf.nodup fun a member =>
    ⟨(same a member).child, (same a member).parent⟩
  sorted := by
    have sorted := wf.sorted
    rw [SortedBy, List.pairwise_map] at sorted ⊢
    apply sorted.imp_of_mem
    intro a b aMember bMember smaller
    rw [(same a aMember).subscript, (same b bMember).subscript]
    exact smaller
  balanced := wf.balanced.congr fun a member => (same a member).balance
  height := wf.height
  validKeys a member := (same a member).validKey (wf.validKeys a member)

theorem Followed.elsewhere {fs : List (Frame Addr)} {u : BinaryTree Addr}
    (followed : Followed t.heap fs)
    (same : ∀ a ∈ inorder (plug fs u), (t.heap a).SameButValue (heap a)) : Followed heap fs := by
  intro f member
  rw [(same f.elem (mem_inorder_plug.mpr (.inr (frame_around member)))).descent]
  exact followed f member

theorem LocalTree.ClueOk.elsewhere (clue : t.ClueOk T)
    (same : ∀ a ∈ inorder T, (t.heap a).SameButValue (heap a)) :
    ({ t with heap := heap } : LocalTree).ClueOk T := by
  intro c isClue
  obtain ⟨fs, l, r, rfl, followed, bounds⟩ := clue c isClue
  exact ⟨fs, l, r, rfl, followed.elsewhere same, bounds⟩

theorem LocalTree.PlaceOf.elsewhere {key : LocalSubscript} {parent : Option Addr}
    (place : t.PlaceOf T key parent)
    (same : ∀ a ∈ inorder T, (t.heap a).SameButValue (heap a)) :
    ({ t with heap := heap } : LocalTree).PlaceOf T key parent := by
  obtain ⟨fs, rfl, isParent, followed, isClue, between⟩ := place
  refine ⟨fs, rfl, isParent, followed.elsewhere same, isClue, ?_⟩
  intro s a member
  have inTree : a ∈ inorder (plug fs .nil) := by
    apply mem_inorder_plug.mpr
    right
    cases s
    · exact .inl member
    · exact .inr member
  rw [(same a inTree).subscript]
  exact between s a member

end Elsewhere

/-! ## Every call -/

/-- What holds in every session. -/
structure Session.Valid (s : Session) (T : BinaryTree Addr) : Prop where
  wellFormed : s.tree.WellFormed T
  clue : (∀ n, s.last ≠ .prepared n) → s.tree.ClueOk T
  missed : ∀ key parent, s.last = .missed key parent →
    key.Valid ∧ s.tree.PlaceOf T key.subscript parent
  found : ∀ n, s.last = .found n ∨ s.last = .prepared n →
    Leads (fun a => (s.tree.heap a).descent_dir) T n

theorem Session.Valid.pointsAtLast {s : Session} {T : BinaryTree Addr} (valid : s.Valid T) :
    s.PointsAtLast T := by
  refine ⟨valid.found, ?_⟩
  intro notPrepared c isClue
  obtain ⟨fs, l, r, whole, followed, _⟩ := valid.clue notPrepared c isClue
  exact ⟨fs, l, r, whole, followed⟩

/-- Same contents for the same nodes give the same entries. -/
theorem entries_of_sameData {t t' : LocalTree} {as : List Addr}
    (same : ∀ a ∈ as, (t.heap a).SameData (t'.heap a)) :
    (as.map fun a => (a, (t'.heap a).subscript, (t'.heap a).v, (t'.heap a).sbs_child)) =
      as.map fun a => (a, (t.heap a).subscript, (t.heap a).v, (t.heap a).sbs_child) := by
  apply List.map_congr_left
  intro a member
  obtain ⟨subscript, value, child, _⟩ := same a member
  rw [subscript, value, child]

/-- A key that belongs to an empty place is nowhere in the tree. -/
theorem LocalTree.PlaceOf.absent {t : LocalTree} {T : BinaryTree Addr} {key : LocalSubscript}
    {parent : Option Addr} (place : t.PlaceOf T key parent) :
    ∀ a ∈ inorder T, (t.heap a).subscript ≠ key := by
  obtain ⟨fs, rfl, _, _, _, between⟩ := place
  intro a member
  rcases mem_inorder_plug.mp member with impossible | inFront | inBack
  · cases impossible
  · exact ne_of_lt (between .left a inFront)
  · exact ne_of_gt (between .right a inBack)

/-- A lookup keeps the invariant. -/
theorem Session.lookup_step {s : Session} {T : BinaryTree Addr} (valid : s.Valid T)
    {key : TreeKeySubscr} {lookupParent : Option Addr}
    (permitted : s.Permits (.lookup key lookupParent)) :
    ∃ s', s.step (.lookup key lookupParent) = some s' ∧ s'.Valid T ∧
      s.Effect T (.lookup key lookupParent) s' T := by
  obtain ⟨keyValid, notPrepared⟩ := permitted
  obtain ⟨t', node, parent, done, looked⟩ :=
    lvAvlTreeLookup_spec keyValid valid.wellFormed (valid.clue notPrepared) lookupParent
  have entries : t'.entries T = s.tree.entries T :=
    entries_of_sameData fun a _ => looked.shape.data a
  simp only [Session.step, done, Option.bind_eq_bind, Option.bind_some]
  rcases looked.outcome with ⟨n, rfl, same, leads⟩ | ⟨rfl, place⟩
  · refine ⟨_, rfl, ⟨looked.wellFormed, fun _ => looked.clue, ?_, ?_⟩, entries,
      .inl ⟨n, rfl, leads.mem, ?_⟩⟩
    · rintro key' parent' ⟨⟩
    · intro n' last
      simp only [LastCall.found.injEq, reduceCtorEq, or_false] at last
      exact last ▸ leads
    · rw [← looked.shape.subscript]
      exact same
  · refine ⟨_, rfl, ⟨looked.wellFormed, fun _ => looked.clue, ?_, ?_⟩, entries,
      .inr ⟨⟨parent, rfl⟩, ?_⟩⟩
    · rintro key' parent' ⟨⟩
      exact ⟨keyValid, place⟩
    · simp
    · intro a member
      rw [← looked.shape.subscript]
      exact place.absent a member

/-- An insertion keeps the invariant. -/
theorem Session.insert_step {s : Session} {T : BinaryTree Addr} (valid : s.Valid T) {node : Addr}
    (permitted : s.Permits (.insert node)) :
    ∃ s' T', s.step (.insert node) = some s' ∧ s'.Valid T' ∧ s.Effect T (.insert node) s' T' := by
  obtain ⟨⟨key, parent, missed⟩, free⟩ := permitted
  obtain ⟨keyValid, place⟩ := valid.missed key parent missed
  have fresh : node ∉ inorder T := fun member => free (valid.wellFormed.hasNode.mpr member)
  have clue : s.tree.ClueOk T := by
    apply valid.clue
    intro n prepared
    cases missed.symm.trans prepared
  obtain ⟨t', T', done, inserted⟩ :=
    lvAvlTreeNodeInsert_spec valid.wellFormed clue keyValid place fresh
  obtain ⟨front, back, old, new⟩ := inserted.order
  have others : ∀ a ∈ front ++ back, (s.tree.heap a).SameData (t'.heap a) := by
    intro a member
    apply inserted.others
    rintro rfl
    exact fresh (old ▸ member)
  refine ⟨⟨t', .idle⟩, T', ?_, ⟨inserted.wellFormed, fun _ => inserted.clue, ?_, ?_⟩, ?_⟩
  · simp only [Session.step, missed, done, Option.bind_eq_bind, Option.bind_some]
  · rintro key' parent' ⟨⟩
  · simp
  · refine ⟨key, parent, _, _, missed, by rw [LocalTree.entries, old, List.map_append], ?_⟩
    rw [LocalTree.entries, new, List.map_append, List.map_cons, inserted.subscript,
      inserted.value.1, inserted.value.2]
    rw [entries_of_sameData (t := s.tree) fun a member => others a (List.mem_append_left _ member),
      entries_of_sameData (t := s.tree) fun a member => others a (List.mem_append_right _ member)]

theorem Session.delete_step {s : Session} {T : BinaryTree Addr} (valid : s.Valid T)
    (permitted : s.Permits .delete) :
    ∃ s' T', s.step .delete = some s' ∧ s'.Valid T' ∧ s.Effect T .delete s' T' := by
  obtain ⟨n, last⟩ := permitted
  obtain ⟨t', T', done, deleted⟩ := lvAvlTreeNodeDelete_spec valid.wellFormed (valid.found n last)
  obtain ⟨front, back, old, new⟩ := deleted.order
  refine ⟨⟨t', .idle⟩, T', ?_, ⟨deleted.wellFormed, ?_, ?_, ?_⟩, ?_⟩
  · rcases last with last | last
    · simp only [Session.step, last, done, Option.bind_eq_bind, Option.bind_some]
    · simp only [Session.step, last, done, Option.bind_eq_bind, Option.bind_some]
  · intro _ c isClue
    cases deleted.noClue.symm.trans isClue
  · rintro key' parent' ⟨⟩
  · simp
  · refine ⟨n, _, _, _, last, rfl, by rw [LocalTree.entries, old, List.map_append, List.map_cons],
      ?_⟩
    rw [LocalTree.entries, new, List.map_append,
      entries_of_sameData (t := s.tree) fun a _ => deleted.data a,
      entries_of_sameData (t := s.tree) fun a _ => deleted.data a]

theorem Session.prepare_step {s : Session} {T : BinaryTree Addr} (valid : s.Valid T)
    {node : Addr} (permitted : s.Permits (.prepareForDelete node)) :
    ∃ s', s.step (.prepareForDelete node) = some s' ∧ s'.Valid T ∧
      s.Effect T (.prepareForDelete node) s' T := by
  obtain ⟨inTree, _⟩ := permitted
  obtain ⟨t', done, wf, _, shape, leads⟩ := lvAvlTreeNodePrepareForDelete_spec valid.wellFormed
    (valid.wellFormed.hasNode.mp inTree)
  refine ⟨⟨t', .prepared node⟩, ?_, ⟨wf, ?_, ?_, ?_⟩,
    entries_of_sameData fun a _ => shape.data a, rfl⟩
  · simp only [Session.step, done, Option.bind_eq_bind, Option.bind_some]
  · intro notPrepared
    exact absurd rfl (notPrepared node)
  · rintro key' parent' ⟨⟩
  · intro n last
    simp only [LastCall.prepared.injEq, reduceCtorEq, false_or] at last
    exact last ▸ leads

theorem Session.elsewhere_step {s : Session} {T : BinaryTree Addr} (valid : s.Valid T)
    {heap : Heap} (permitted : s.Permits (.elsewhere heap)) :
    ∃ s', s.step (.elsewhere heap) = some s' ∧ s'.Valid T ∧ s.Effect T (.elsewhere heap) s' T := by
  have same : ∀ a ∈ inorder T, (s.tree.heap a).SameButValue (heap a) :=
    fun a member => permitted a (valid.wellFormed.hasNode.mpr member)
  refine ⟨_, rfl, ⟨valid.wellFormed.elsewhere same, ?_, ?_, ?_⟩, ?_⟩
  · exact fun notPrepared => (valid.clue notPrepared).elsewhere same
  · intro key parent missed
    obtain ⟨keyValid, place⟩ := valid.missed key parent missed
    exact ⟨keyValid, place.elsewhere same⟩
  · intro n last
    exact (valid.found n last).congr fun a member => (same a member).descent
  · show List.map _ (LocalTree.entries _ T) = List.map _ (LocalTree.entries _ T)
    rw [LocalTree.entries, LocalTree.entries, List.map_map, List.map_map]
    apply List.map_congr_left
    intro a member
    simp only [Function.comp, (same a member).subscript]

/-- Each permitted call succeeds and keeps what holds in every session. -/
theorem Session.Valid.step {s : Session} {T : BinaryTree Addr} (valid : s.Valid T) {c : Call}
    (permitted : s.Permits c) :
    ∃ s' T', s.step c = some s' ∧ s'.Valid T' ∧ s.Effect T c s' T' := by
  cases c with
  | lookup key lookupParent =>
    obtain ⟨s', done, valid', effect⟩ := lookup_step valid permitted
    exact ⟨s', T, done, valid', effect⟩
  | insert node => exact insert_step valid permitted
  | delete => exact delete_step valid permitted
  | prepareForDelete node =>
    obtain ⟨s', done, valid', effect⟩ := prepare_step valid permitted
    exact ⟨s', T, done, valid', effect⟩
  | elsewhere heap =>
    obtain ⟨s', done, valid', effect⟩ := elsewhere_step valid permitted
    exact ⟨s', T, done, valid', effect⟩

theorem Session.Reachable.valid {s : Session} (reachable : s.Reachable) : ∃ T, s.Valid T := by
  induction reachable with
  | create heap slot =>
    refine ⟨.nil, ⟨rfl, ?_, trivial, List.Pairwise.nil, trivial, rfl, ?_⟩, ?_, ?_, ?_⟩
    · rintro a ⟨⟩
    · intro a member
      cases member
    · rintro _ c ⟨⟩
    · rintro key parent ⟨⟩
    · simp
  | call c _ permitted done ih =>
    obtain ⟨T, valid⟩ := ih
    obtain ⟨s', T', done', valid', _⟩ := valid.step permitted
    obtain rfl := Option.some.inj (done.symm.trans done')
    exact ⟨T', valid'⟩

/-- In every session the tree is a balanced search tree whose directions lead to the
node looked up last, and each permitted call changes its entries by exactly the
entry the call is about. -/
theorem local_tree_runs {s : Session} (reachable : s.Reachable) :
    ∃ T, s.tree.WellFormed T ∧ s.PointsAtLast T ∧
      ∀ c, s.Permits c → ∃ s' T', s.step c = some s' ∧ s'.tree.WellFormed T' ∧
        s'.PointsAtLast T' ∧ s.Effect T c s' T' := by
  obtain ⟨T, valid⟩ := reachable.valid
  refine ⟨T, valid.wellFormed, valid.pointsAtLast, ?_⟩
  intro c permitted
  obtain ⟨s', T', done, valid', effect⟩ := valid.step permitted
  exact ⟨s', T', done, valid'.wellFormed, valid'.pointsAtLast, effect⟩

/-! ## A session -/

/-- A call that is known to return. -/
def Session.calling (s : Session) (c : Call) : Session := (s.step c).getD s

/-- Look up a key that is not there and insert it. -/
def Session.storing (s : Session) (key : TreeKeySubscr) (node : Addr) : Session :=
  (s.calling (.lookup key none)).calling (.insert node)

theorem Session.Reachable.calling {s : Session} (reachable : s.Reachable) {c : Call}
    (permitted : s.Permits c) : (s.calling c).Reachable := by
  obtain ⟨T, valid⟩ := reachable.valid
  obtain ⟨s', T', done, _⟩ := valid.step permitted
  rw [Session.calling, done]
  exact reachable.call c permitted done

/-- The root and the children of the nodes listed are among the nodes listed. -/
def LocalTree.within (t : LocalTree) (nodes : List Addr) : Bool :=
  t.lvt.avl_root.all nodes.contains &&
    nodes.all fun a =>
      (t.heap a).avl_left.all nodes.contains && (t.heap a).avl_right.all nodes.contains

theorem LocalTree.HasNode.mem {t : LocalTree} {nodes : List Addr} (within : t.within nodes = true)
    {a : Addr} (present : t.HasNode a) : a ∈ nodes := by
  simp only [LocalTree.within, Bool.and_eq_true, Option.all_eq_true, List.contains_iff_mem,
    List.all_eq_true] at within
  induction present with
  | root isRoot => exact within.1 _ isRoot
  | child side _ isChild member =>
    cases side with
    | left => exact (within.2 _ member).1 _ isChild
    | right => exact (within.2 _ member).2 _ isChild

theorem Session.Reachable.storing {s : Session} (reachable : s.Reachable) (idle : s.last = .idle)
    {key : TreeKeySubscr} (valid : key.Valid) (parent : Option Addr)
    (missed : (s.calling (.lookup key none)).last = .missed key parent) (nodes : List Addr)
    (within : (s.calling (.lookup key none)).tree.within nodes = true) {node : Addr}
    (fresh : node ∉ nodes) : (s.storing key node).Reachable := by
  have looked : (s.calling (.lookup key none)).Reachable := by
    apply reachable.calling
    refine ⟨valid, ?_⟩
    intro n prepared
    cases idle.symm.trans prepared
  exact looked.calling ⟨⟨key, parent, missed⟩, fun present => fresh (present.mem within)⟩

/-- The key of a string. -/
def stringKey (str : List UInt8) : TreeKeySubscr :=
  ⟨{ literal_zero with mvtype := ⟨false, false, true, false, false⟩, str := str }, false⟩

theorem stringKey_valid (str : List UInt8) : (stringKey str).Valid := nofun

/-- The subscript 5, whose digits are kept times a thousand. -/
def numberKey : TreeKeySubscr :=
  ⟨{ literal_zero with mvtype := ⟨true, true, false, false, false⟩, m1 := 5000 }, true⟩

theorem numberKey_valid : numberKey.Valid := fun _ => .inl ⟨rfl, rfl, by decide⟩

/-- A tree that has just been created. -/
def emptySession : Session :=
  let slot : LvTreeNode := ⟨literal_zero, none, literal_zero.mvtype, false, .even, .left, false, 0,
    false, 0, 0, [], none, none, none⟩
  ⟨⟨fun _ => slot, LV_TREE_CREATE ⟨7, some 9, none, none, none⟩⟩, .idle⟩

/-- The keys "b", "c", "d", 5 and "a", inserted in this order: the third rotates once
and the last one rotates twice. -/
def filledSession : Session :=
  ((((emptySession.storing (stringKey [98]) 1).storing (stringKey [99]) 2).storing
    (stringKey [100]) 3).storing numberKey 4).storing (stringKey [97]) 5

theorem filledSession_reachable : filledSession.Reachable := by
  have created : emptySession.Reachable := .create _ _
  have first := created.storing rfl (stringKey_valid [98]) none rfl [] rfl
    (show 1 ∉ [] by decide)
  have second := first.storing rfl (stringKey_valid [99]) (some 1) (by decide +kernel) [1]
    (by decide +kernel) (show 2 ∉ [1] by decide)
  have third := second.storing rfl (stringKey_valid [100]) (some 2) (by decide +kernel) [1, 2]
    (by decide +kernel) (show 3 ∉ [1, 2] by decide)
  have fourth := third.storing rfl numberKey_valid (some 1) (by decide +kernel) [1, 2, 3]
    (by decide +kernel) (show 4 ∉ [1, 2, 3] by decide)
  exact fourth.storing rfl (stringKey_valid [97]) (some 4) (by decide +kernel) [1, 2, 3, 4]
    (by decide +kernel) (by decide)

/-- The deletion of "d" from the filled tree rotates as well, and brings the node of
"a" to the root. That node has two children; it is deleted next. -/
theorem local_tree_runs_rotations :
    ∃ s s' : Session, s.tree.lvt.avl_root = some 5 ∧ s'.tree.lvt.avl_root = some 1 ∧
      (∃ T, s.tree.WellFormed T ∧ s.PointsAtLast T ∧
        ∀ c, s.Permits c → ∃ s' T', s.step c = some s' ∧ s'.tree.WellFormed T' ∧
          s'.PointsAtLast T' ∧ s.Effect T c s' T') ∧
      ∃ T, s'.tree.WellFormed T ∧ s'.PointsAtLast T ∧
        ∀ c, s'.Permits c → ∃ s'' T', s'.step c = some s'' ∧ s''.tree.WellFormed T' ∧
          s''.PointsAtLast T' ∧ s'.Effect T c s'' T' := by
  have found := filledSession_reachable.calling (c := .lookup (stringKey [100]) none)
    ⟨stringKey_valid _, nofun⟩
  have deleted := found.calling (c := .delete) ⟨3, .inl (by decide +kernel)⟩
  have prepared := deleted.calling (c := .prepareForDelete 5)
    ⟨.root (by decide +kernel), nofun⟩
  have gone := prepared.calling (c := .delete) ⟨5, .inr (by decide +kernel)⟩
  exact ⟨_, _, by decide +kernel, by decide +kernel, local_tree_runs deleted, local_tree_runs gone⟩

end Ydb
