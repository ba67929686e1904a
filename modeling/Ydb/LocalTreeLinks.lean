import Ydb.LocalTreeKeys

/-!
# Linked trees

A binary tree of addresses describes a heap when the child and parent pointers of
its nodes are those of the tree. The same is said of the frames around a
position, so that an assignment inside the position leaves the frames alone.
Rotations relink the nodes of one subtree; they keep its order, its keys and
directions, and restore the balance.
-/

namespace Ydb

open Lib BinaryTree

/-! ## Assignments -/

namespace LvTreeNode

/-- Assignments to links, balance and direction leave the contents alone. -/
def SameData (n n' : LvTreeNode) : Prop :=
  n'.subscript = n.subscript ∧ n'.v = n.v ∧ n'.sbs_child = n.sbs_child ∧
    (n.ValidKey → n'.ValidKey)

theorem SameData.refl (n : LvTreeNode) : n.SameData n := ⟨rfl, rfl, rfl, id⟩

theorem SameData.trans {n n' n'' : LvTreeNode} (first : n.SameData n') (second : n'.SameData n'') :
    n.SameData n'' :=
  ⟨second.1.trans first.1, second.2.1.trans first.2.1, second.2.2.1.trans first.2.2.1,
    fun valid => second.2.2.2 (first.2.2.2 valid)⟩

theorem sameData_setChild (n : LvTreeNode) (s : Side) (c : Option Addr) :
    n.SameData (n.setChild s c) := by
  cases s
  · exact ⟨rfl, rfl, rfl, fun valid => ⟨valid.valid, valid.marked, valid.notInt, valid.converted⟩⟩
  · exact ⟨rfl, rfl, rfl, fun valid => ⟨valid.valid, valid.marked, valid.notInt, valid.converted⟩⟩

theorem sameData_setParent (n : LvTreeNode) (p : Option Addr) : n.SameData (n.setParent p) :=
  ⟨rfl, rfl, rfl, fun valid => ⟨valid.valid, valid.marked, valid.notInt, valid.converted⟩⟩

theorem sameData_setBalance (n : LvTreeNode) (b : Tilt) : n.SameData (n.setBalance b) :=
  ⟨rfl, rfl, rfl, fun valid => ⟨valid.valid, valid.marked, valid.notInt, valid.converted⟩⟩

theorem sameData_setDescent (n : LvTreeNode) (d : Side) : n.SameData (n.setDescent d) :=
  ⟨rfl, rfl, rfl, fun valid => ⟨valid.valid, valid.marked, valid.notInt, valid.converted⟩⟩

@[simp] theorem setChild_parent (n : LvTreeNode) (s : Side) (c : Option Addr) :
    (n.setChild s c).avl_parent = n.avl_parent := by cases s <;> rfl

@[simp] theorem setChild_balance (n : LvTreeNode) (s : Side) (c : Option Addr) :
    (n.setChild s c).balance = n.balance := by cases s <;> rfl

@[simp] theorem setChild_descent (n : LvTreeNode) (s : Side) (c : Option Addr) :
    (n.setChild s c).descent_dir = n.descent_dir := by cases s <;> rfl

theorem setChild_child (n : LvTreeNode) (s s' : Side) (c : Option Addr) :
    (n.setChild s c).child s' = if s' = s then c else n.child s' := by
  cases s <;> cases s' <;> rfl

end LvTreeNode

namespace Heap

variable (h : Heap) (a x : Addr)

theorem modify_apply (f : LvTreeNode → LvTreeNode) :
    h.modify a f x = if x = a then f (h x) else h x := by
  unfold modify Function.update
  by_cases same : x = a
  · subst same
    simp
  · simp [same]

theorem reparent_apply (c p : Option Addr) :
    h.reparent c p x = if c = some x then (h x).setParent p else h x := by
  cases c with
  | none => rfl
  | some c =>
    rw [reparent, modify_apply]
    by_cases same : x = c
    · rw [if_pos same, if_pos (congrArg some same.symm)]
    · rw [if_neg same, if_neg fun equal => same (Option.some.inj equal).symm]

/-- What an assignment keeps at its node it keeps everywhere. -/
theorem modify_view {β : Type} (view : LvTreeNode → β) {f : LvTreeNode → LvTreeNode}
    (keeps : ∀ n, view (f n) = view n) : view (h.modify a f x) = view (h x) := by
  rw [modify_apply]
  split
  · exact keeps _
  · rfl

theorem reparent_view {β : Type} (view : LvTreeNode → β) (c p : Option Addr)
    (keeps : ∀ n : LvTreeNode, view (n.setParent p) = view n) :
    view (h.reparent c p x) = view (h x) := by
  rw [reparent_apply]
  split
  · exact keeps _
  · rfl

/-! Each field after each kind of assignment. -/

@[simp] theorem setChild_child (s s' : Side) (c : Option Addr) :
    (h.modify a (·.setChild s c) x).child s' =
      if x = a ∧ s' = s then c else (h x).child s' := by
  rw [modify_apply]
  by_cases same : x = a
  · simp [same, LvTreeNode.setChild_child]
  · simp [same]

@[simp] theorem setChild_parent (s : Side) (c : Option Addr) :
    (h.modify a (·.setChild s c) x).avl_parent = (h x).avl_parent :=
  modify_view h a x (·.avl_parent) (by simp)

@[simp] theorem setChild_balance (s : Side) (c : Option Addr) :
    (h.modify a (·.setChild s c) x).balance = (h x).balance :=
  modify_view h a x (·.balance) (by simp)

@[simp] theorem setChild_descent (s : Side) (c : Option Addr) :
    (h.modify a (·.setChild s c) x).descent_dir = (h x).descent_dir :=
  modify_view h a x (·.descent_dir) (by simp)

@[simp] theorem setParent_child (s : Side) (p : Option Addr) :
    (h.modify a (·.setParent p) x).child s = (h x).child s :=
  modify_view h a x (·.child s) fun _ => rfl

@[simp] theorem setParent_parent (p : Option Addr) :
    (h.modify a (·.setParent p) x).avl_parent = if x = a then p else (h x).avl_parent := by
  rw [modify_apply]
  split <;> rfl

@[simp] theorem setParent_balance (p : Option Addr) :
    (h.modify a (·.setParent p) x).balance = (h x).balance :=
  modify_view h a x (·.balance) fun _ => rfl

@[simp] theorem setParent_descent (p : Option Addr) :
    (h.modify a (·.setParent p) x).descent_dir = (h x).descent_dir :=
  modify_view h a x (·.descent_dir) fun _ => rfl

@[simp] theorem setBalance_child (s : Side) (b : Tilt) :
    (h.modify a (·.setBalance b) x).child s = (h x).child s :=
  modify_view h a x (·.child s) fun _ => rfl

@[simp] theorem setBalance_parent (b : Tilt) :
    (h.modify a (·.setBalance b) x).avl_parent = (h x).avl_parent :=
  modify_view h a x (·.avl_parent) fun _ => rfl

@[simp] theorem setBalance_balance (b : Tilt) :
    (h.modify a (·.setBalance b) x).balance = if x = a then b else (h x).balance := by
  rw [modify_apply]
  split <;> rfl

@[simp] theorem setBalance_descent (b : Tilt) :
    (h.modify a (·.setBalance b) x).descent_dir = (h x).descent_dir :=
  modify_view h a x (·.descent_dir) fun _ => rfl

@[simp] theorem setDescent_child (s d : Side) :
    (h.modify a (·.setDescent d) x).child s = (h x).child s :=
  modify_view h a x (·.child s) fun _ => rfl

@[simp] theorem setDescent_parent (d : Side) :
    (h.modify a (·.setDescent d) x).avl_parent = (h x).avl_parent :=
  modify_view h a x (·.avl_parent) fun _ => rfl

@[simp] theorem setDescent_balance (d : Side) :
    (h.modify a (·.setDescent d) x).balance = (h x).balance :=
  modify_view h a x (·.balance) fun _ => rfl

@[simp] theorem setDescent_descent (d : Side) :
    (h.modify a (·.setDescent d) x).descent_dir = if x = a then d else (h x).descent_dir := by
  rw [modify_apply]
  split <;> rfl

@[simp] theorem reparent_child (c p : Option Addr) (s : Side) :
    (h.reparent c p x).child s = (h x).child s :=
  reparent_view h x (·.child s) c p fun _ => rfl

@[simp] theorem reparent_parent (c p : Option Addr) :
    (h.reparent c p x).avl_parent = if c = some x then p else (h x).avl_parent := by
  rw [reparent_apply]
  split <;> rfl

@[simp] theorem reparent_balance (c p : Option Addr) :
    (h.reparent c p x).balance = (h x).balance :=
  reparent_view h x (·.balance) c p fun _ => rfl

@[simp] theorem reparent_descent (c p : Option Addr) :
    (h.reparent c p x).descent_dir = (h x).descent_dir :=
  reparent_view h x (·.descent_dir) c p fun _ => rfl

/-! Contents after assignments. -/

variable {h a x}

/-- The contents of all nodes are those of another heap. -/
def SameData (h h' : Heap) : Prop := ∀ x, (h x).SameData (h' x)

theorem SameData.refl (h : Heap) : h.SameData h := fun x => LvTreeNode.SameData.refl (h x)

theorem SameData.trans {h h' h'' : Heap} (first : h.SameData h') (second : h'.SameData h'') :
    h.SameData h'' := fun x => (first x).trans (second x)

theorem SameData.modify {h' : Heap} (same : h.SameData h') {f : LvTreeNode → LvTreeNode}
    (keeps : ∀ n : LvTreeNode, n.SameData (f n)) : h.SameData (h'.modify a f) := by
  intro x
  rw [modify_apply]
  split
  · exact (same x).trans (keeps _)
  · exact same x

theorem SameData.setChild {h' : Heap} (same : h.SameData h') {s : Side} {c : Option Addr} :
    h.SameData (h'.modify a (·.setChild s c)) := same.modify fun n => n.sameData_setChild s c

theorem SameData.setParent {h' : Heap} (same : h.SameData h') {p : Option Addr} :
    h.SameData (h'.modify a (·.setParent p)) := same.modify fun n => n.sameData_setParent p

theorem SameData.setBalance {h' : Heap} (same : h.SameData h') {b : Tilt} :
    h.SameData (h'.modify a (·.setBalance b)) := same.modify fun n => n.sameData_setBalance b

theorem SameData.setDescent {h' : Heap} (same : h.SameData h') {d : Side} :
    h.SameData (h'.modify a (·.setDescent d)) := same.modify fun n => n.sameData_setDescent d

theorem SameData.reparent {h' : Heap} (same : h.SameData h') {c p : Option Addr} :
    h.SameData (h'.reparent c p) := by
  cases c with
  | none => exact same
  | some c => exact same.setParent

end Heap

/-! ## Links -/

/-- The node at the root of the tree, if there is one, has the given parent. -/
def ParentIs (h : Heap) (t : BinaryTree Addr) (p : Option Addr) : Prop :=
  ∀ a, top t = some a → (h a).avl_parent = p

/-- Child and parent pointers are those of the tree. Nothing is said of the
parent of its root. -/
def Linked (h : Heap) : BinaryTree Addr → Prop
  | .nil => True
  | .node a l r =>
    (h a).avl_left = top l ∧ (h a).avl_right = top r ∧ ParentIs h l (some a) ∧
      ParentIs h r (some a) ∧ Linked h l ∧ Linked h r

theorem parentIs_branch {h : Heap} {s : Side} {a : Addr} {near far : BinaryTree Addr}
    {p : Option Addr} : ParentIs h (branch s a near far) p ↔ (h a).avl_parent = p := by
  unfold ParentIs
  rw [top_branch]
  constructor
  · exact fun atRoot => atRoot a rfl
  · rintro parent b same
    rw [← Option.some.inj same]
    exact parent

theorem linked_branch {h : Heap} {s : Side} {a : Addr} {near far : BinaryTree Addr} :
    Linked h (branch s a near far) ↔
      (h a).child s = top near ∧ (h a).child s.other = top far ∧ ParentIs h near (some a) ∧
        ParentIs h far (some a) ∧ Linked h near ∧ Linked h far := by
  cases s
  · exact Iff.rfl
  · simp only [branch, Linked, LvTreeNode.child, Side.pick, Side.other]
    tauto

/-- A node keeps the pointers it has in another heap. -/
def SameLinks (h h' : Heap) (a : Addr) : Prop :=
  (∀ s, (h' a).child s = (h a).child s) ∧ (h' a).avl_parent = (h a).avl_parent

/-- Only the pointers of the tree's own nodes matter, without its root's parent. -/
theorem Linked.congr {h h' : Heap} {t : BinaryTree Addr} (linked : Linked h t)
    (nodup : (inorder t).Nodup) (children : ∀ a ∈ inorder t, ∀ s, (h' a).child s = (h a).child s)
    (parents : ∀ a ∈ inorder t, top t ≠ some a → (h' a).avl_parent = (h a).avl_parent) :
    Linked h' t := by
  induction t with
  | nil => trivial
  | node a l r leftHypothesis rightHypothesis =>
    rw [show BinaryTree.node a l r = branch .left a l r from rfl] at *
    rw [linked_branch] at linked ⊢
    obtain ⟨notLeft, notRight, leftNodup, rightNodup, _⟩ := nodup_branch.mp nodup
    obtain ⟨left, right, leftParent, rightParent, leftLinked, rightLinked⟩ := linked
    have here : a ∈ inorder (branch .left a l r) := mem_inorder_branch.mpr (.inl rfl)
    have inLeft : ∀ b ∈ inorder l, b ∈ inorder (branch .left a l r) :=
      fun b member => mem_inorder_branch.mpr (.inr (.inl member))
    have inRight : ∀ b ∈ inorder r, b ∈ inorder (branch .left a l r) :=
      fun b member => mem_inorder_branch.mpr (.inr (.inr member))
    have below : ∀ b, b ≠ a → top (branch .left a l r) ≠ some b := by
      intro b differ same
      rw [top_branch] at same
      exact differ (Option.some.inj same).symm
    have leftBelow : ∀ b ∈ inorder l, (h' b).avl_parent = (h b).avl_parent := by
      intro b member
      exact parents b (inLeft b member) (below b fun same => notLeft (same ▸ member))
    have rightBelow : ∀ b ∈ inorder r, (h' b).avl_parent = (h b).avl_parent := by
      intro b member
      exact parents b (inRight b member) (below b fun same => notRight (same ▸ member))
    refine ⟨?_, ?_, ?_, ?_, ?_, ?_⟩
    · rw [children a here]
      exact left
    · rw [children a here]
      exact right
    · intro b isTop
      rw [leftBelow b (top_mem isTop)]
      exact leftParent b isTop
    · intro b isTop
      rw [rightBelow b (top_mem isTop)]
      exact rightParent b isTop
    · exact leftHypothesis leftLinked leftNodup (fun b member => children b (inLeft b member))
        fun b member _ => leftBelow b member
    · exact rightHypothesis rightLinked rightNodup (fun b member => children b (inRight b member))
        fun b member _ => rightBelow b member

/-- A subtree keeps its links and its parent when its nodes keep theirs. -/
theorem Linked.of_sameLinks {h h' : Heap} {t : BinaryTree Addr} (linked : Linked h t)
    (nodup : (inorder t).Nodup) (same : ∀ a ∈ inorder t, SameLinks h h' a) : Linked h' t :=
  linked.congr nodup (fun a member => (same a member).1) fun a member _ => (same a member).2

theorem ParentIs.of_sameLinks {h h' : Heap} {t : BinaryTree Addr} {p : Option Addr}
    (parent : ParentIs h t p) (same : ∀ a ∈ inorder t, SameLinks h h' a) : ParentIs h' t p := by
  intro a isTop
  rw [(same a (top_mem isTop)).2]
  exact parent a isTop

/-! ## Frames -/

/-- The node above a position. -/
def parentOf (fs : List (Frame Addr)) (p : Option Addr) : Option Addr :=
  match fs with
  | [] => p
  | f :: _ => some f.elem

/-- The pointers of the nodes around a position: `hole` points at the position,
`whole` at the outermost node, whose parent is `p`. -/
def Segment (h : Heap) : List (Frame Addr) → (hole p whole : Option Addr) → Prop
  | [], hole, _, whole => whole = hole
  | f :: up, hole, p, whole =>
    (h f.elem).child f.side = hole ∧ (h f.elem).child f.side.other = top f.sibling ∧
      ParentIs h f.sibling (some f.elem) ∧ Linked h f.sibling ∧
      (h f.elem).avl_parent = parentOf up p ∧ Segment h up (some f.elem) p whole

theorem linked_plug {h : Heap} {fs : List (Frame Addr)} {t : BinaryTree Addr}
    {p whole : Option Addr} :
    (whole = top (plug fs t) ∧ ParentIs h (plug fs t) p ∧ Linked h (plug fs t)) ↔
      Segment h fs (top t) p whole ∧ ParentIs h t (parentOf fs p) ∧ Linked h t := by
  induction fs generalizing t with
  | nil => exact Iff.rfl
  | cons f up ih =>
    rw [plug_cons, ih, Frame.fill, top_branch, parentIs_branch, linked_branch,
      Segment, parentOf]
    tauto

theorem segment_append {h : Heap} {inner outer : List (Frame Addr)} {hole p whole : Option Addr} :
    Segment h (inner ++ outer) hole p whole ↔
      ∃ middle, Segment h inner hole (parentOf outer p) middle ∧ Segment h outer middle p whole := by
  induction inner generalizing hole with
  | nil =>
    constructor
    · exact fun segment => ⟨hole, rfl, segment⟩
    · rintro ⟨middle, rfl, segment⟩
      exact segment
  | cons f up ih =>
    rw [List.cons_append, Segment, ih]
    have above : parentOf (up ++ outer) p = parentOf up (parentOf outer p) := by cases up <;> rfl
    rw [above]
    constructor
    · rintro ⟨near, far, parent, linked, up', middle, below, rest⟩
      exact ⟨middle, ⟨near, far, parent, linked, up', below⟩, rest⟩
    · rintro ⟨middle, ⟨near, far, parent, linked, up', below⟩, rest⟩
      exact ⟨near, far, parent, linked, up', middle, below, rest⟩

/-- The frames keep their links when the nodes around the position keep theirs. -/
theorem Segment.of_sameLinks {h h' : Heap} {fs : List (Frame Addr)} {hole p whole : Option Addr}
    (segment : Segment h fs hole p whole) {t : BinaryTree Addr}
    (nodup : (inorder (plug fs t)).Nodup) (same : ∀ a, Around fs a → SameLinks h h' a) :
    Segment h' fs hole p whole := by
  induction fs generalizing hole t with
  | nil => exact segment
  | cons f up ih =>
    obtain ⟨near, far, parent, linked, above, rest⟩ := segment
    have filled : (inorder (plug up (f.fill t))).Nodup := nodup
    obtain ⟨_, _, _, sibling, _⟩ := nodup_branch.mp (nodup_plug filled).1
    have here := same f.elem (around_cons.mpr (.inl rfl))
    have beside : ∀ a ∈ inorder f.sibling, SameLinks h h' a :=
      fun a member => same a (around_cons.mpr (.inr (.inl member)))
    refine ⟨?_, ?_, parent.of_sameLinks beside, linked.of_sameLinks sibling beside, ?_, ?_⟩
    · rw [here.1]
      exact near
    · rw [here.1]
      exact far
    · rw [here.2]
      exact above
    · exact ih rest nodup fun a outside =>
        same a (around_cons.mpr (.inr (.inr outside)))

/-- Pointing the innermost frame at another subtree. -/
theorem Segment.setHole {h : Heap} {f : Frame Addr} {up : List (Frame Addr)}
    {hole p whole : Option Addr} (segment : Segment h (f :: up) hole p whole)
    {u : BinaryTree Addr} (nodup : (inorder (plug (f :: up) u)).Nodup) (c : Option Addr) :
    Segment (h.modify f.elem (·.setChild f.side c)) (f :: up) c p whole := by
  have filled : (inorder (plug up (f.fill u))).Nodup := nodup
  obtain ⟨inner, apart⟩ := nodup_plug filled
  obtain ⟨_, notBeside, _, siblingNodup, _⟩ := nodup_branch.mp inner
  have notAbove := apart f.elem (mem_inorder_branch.mpr (.inl rfl))
  obtain ⟨_, far, parent, linked, above, rest⟩ := segment
  have elsewhere : ∀ x, x ≠ f.elem → SameLinks h (h.modify f.elem (·.setChild f.side c)) x := by
    intro x differ
    rw [SameLinks, Heap.modify_apply, if_neg differ]
    exact ⟨fun _ => rfl, rfl⟩
  have beside : ∀ x ∈ inorder f.sibling, SameLinks h (h.modify f.elem (·.setChild f.side c)) x :=
    fun x member => elsewhere x fun same => notBeside (same ▸ member)
  refine ⟨?_, ?_, parent.of_sameLinks beside, linked.of_sameLinks siblingNodup beside, ?_, ?_⟩
  · rw [Heap.setChild_child, if_pos ⟨rfl, rfl⟩]
  · rw [Heap.setChild_child, if_neg (by simp [f.side.other_ne]), far]
  · rw [Heap.setChild_parent, above]
  · exact rest.of_sameLinks filled fun x outside =>
      elsewhere x fun same => notAbove (same ▸ outside)

/-- The outermost node is one of the frames. -/
theorem Segment.whole_around {h : Heap} {f : Frame Addr} {up : List (Frame Addr)}
    {hole p whole : Option Addr} (segment : Segment h (f :: up) hole p whole) {a : Addr}
    (isWhole : whole = some a) : Around (f :: up) a := by
  induction up generalizing f hole with
  | nil =>
    have same : whole = some f.elem := segment.2.2.2.2.2
    exact around_cons.mpr (.inl (Option.some.inj (isWhole.symm.trans same)))
  | cons g outer ih =>
    exact around_cons.mpr (.inr (.inr (ih segment.2.2.2.2.2)))

/-- Giving the outermost frame another parent. -/
theorem Segment.reparentWhole {h : Heap} {f : Frame Addr} {up : List (Frame Addr)}
    {hole p whole : Option Addr} (segment : Segment h (f :: up) hole p whole)
    {u : BinaryTree Addr} (nodup : (inorder (plug (f :: up) u)).Nodup) (q : Option Addr) :
    Segment (h.reparent whole q) (f :: up) hole q whole := by
  induction up generalizing f hole u with
  | nil =>
    obtain ⟨near, far, parent, linked, above, rfl⟩ := segment
    obtain ⟨_, notBeside, _, siblingNodup, _⟩ := nodup_branch.mp nodup
    have beside : ∀ x ∈ inorder f.sibling, SameLinks h (h.reparent (some f.elem) q) x := by
      intro x member
      have differ : ¬ some f.elem = some x := by
        intro same
        exact notBeside (Option.some.inj same ▸ member)
      rw [SameLinks, Heap.reparent_apply, if_neg differ]
      exact ⟨fun _ => rfl, rfl⟩
    refine ⟨?_, ?_, parent.of_sameLinks beside, linked.of_sameLinks siblingNodup beside, ?_, rfl⟩
    · rw [Heap.reparent_child]
      exact near
    · rw [Heap.reparent_child]
      exact far
    · rw [Heap.reparent_parent, if_pos rfl]
      rfl
  | cons g outer ih =>
    obtain ⟨near, far, parent, linked, above, rest⟩ := segment
    have filled : (inorder (plug (g :: outer) (f.fill u))).Nodup := nodup
    obtain ⟨inner, apart⟩ := nodup_plug filled
    obtain ⟨_, _, _, siblingNodup, _⟩ := nodup_branch.mp inner
    have inside : ∀ x, x = f.elem ∨ x ∈ inorder f.sibling → ¬ whole = some x := by
      intro x member isWhole
      refine apart x (mem_inorder_branch.mpr ?_) (rest.whole_around isWhole)
      rcases member with rfl | beside
      · exact .inl rfl
      · exact .inr (.inr beside)
    have beside : ∀ x ∈ inorder f.sibling, SameLinks h (h.reparent whole q) x := by
      intro x member
      rw [SameLinks, Heap.reparent_apply, if_neg (inside x (.inr member))]
      exact ⟨fun _ => rfl, rfl⟩
    refine ⟨?_, ?_, parent.of_sameLinks beside, linked.of_sameLinks siblingNodup beside, ?_,
      ih rest filled⟩
    · rw [Heap.reparent_child]
      exact near
    · rw [Heap.reparent_child]
      exact far
    · rw [Heap.reparent_parent, if_neg (inside f.elem (.inl rfl))]
      exact above

/-! ## Rotations -/

/-- What a rotation of a subtree may change. -/
structure Rotated (h h' : Heap) (t t' : BinaryTree Addr) : Prop where
  linked : Linked h' t'
  outside : ∀ c, c ∉ inorder t → h' c = h c
  descent : ∀ c, (h' c).descent_dir = (h c).descent_dir
  data : h.SameData h'

section Single

variable {h : Heap} {s : Side} {a b : Addr} {x y z : BinaryTree Addr}

/-- The fields after a single rotation. -/
theorem lvAvlTreeSingleRotation_fields (c : Addr) :
    let h' := (lvAvlTreeSingleRotation h a b s).1
    let node := (h b).child s.other
    (∀ s', (h' c).child s' =
      if c = b ∧ s' = s.other then some a else if c = a ∧ s' = s then node else (h c).child s') ∧
    (h' c).avl_parent =
      (if c = a then some b else if node = some c then some a else (h c).avl_parent) ∧
    (h' c).balance =
      (if (h b).balance ≠ .even then if c = a ∨ c = b then .even else (h c).balance
       else if c = b then .toward s.other else (h c).balance) ∧
    (h' c).descent_dir = (h c).descent_dir := by
  simp only [lvAvlTreeSingleRotation]
  simp only [Heap.setParent_balance, Heap.reparent_balance, Heap.setChild_balance]
  split
  · refine ⟨?_, ?_, ?_, ?_⟩
    · intro s'
      simp
    · simp
    · simp only [Heap.setBalance_balance, Heap.setParent_balance, Heap.reparent_balance,
        Heap.setChild_balance]
      by_cases isA : c = a <;> by_cases isB : c = b <;> simp [isA, isB]
    · simp
  · refine ⟨?_, ?_, ?_, ?_⟩
    · intro s'
      simp
    · simp
    · simp
    · simp

theorem lvAvlTreeSingleRotation_root (h : Heap) (a b : Addr) (s : Side) :
    (lvAvlTreeSingleRotation h a b s).2 = b := by
  simp only [lvAvlTreeSingleRotation]
  split <;> rfl

theorem lvAvlTreeSingleRotation_data : h.SameData (lvAvlTreeSingleRotation h a b s).1 := by
  simp only [lvAvlTreeSingleRotation]
  have links := (Heap.SameData.refl h).setChild (a := a) (s := s) (c := (h b).child s.other)
    |>.setChild (a := b) (s := s.other) (c := some a)
    |>.reparent (c := (h b).child s.other) (p := some a)
    |>.setParent (a := a) (p := some b)
  split
  · exact links.setBalance.setBalance
  · exact links.setBalance

/-- A single rotation in memory. -/
theorem lvAvlTreeSingleRotation_rotated
    (nodup : (inorder (branch s a (branch s b x y) z)).Nodup)
    (linked : Linked h (branch s a (branch s b x y) z)) :
    Rotated h (lvAvlTreeSingleRotation h a b s).1 (branch s a (branch s b x y) z)
      (branch s b x (branch s.other a z y)) := by
  obtain ⟨aNear, aFar, nearNodup, zNodup, nearFar⟩ := nodup_branch.mp nodup
  obtain ⟨bX, bY, xNodup, yNodup, xy⟩ := nodup_branch.mp nearNodup
  rw [linked_branch, linked_branch] at linked
  obtain ⟨_, aOther, bParent, zParent, ⟨bNear, bOther, xParent, yParent, xLinked, yLinked⟩,
    zLinked⟩ := linked
  rw [mem_inorder_branch, not_or, not_or] at aNear
  obtain ⟨differ, aX, aY⟩ := aNear
  have fields := fun c => lvAvlTreeSingleRotation_fields (h := h) (s := s) (a := a) (b := b) c
  have otherNe : s ≠ s.other := fun same => s.other_ne same.symm
  have elsewhere : ∀ c, c ≠ a → c ≠ b → top y ≠ some c →
      SameLinks h (lvAvlTreeSingleRotation h a b s).1 c := by
    intro c notA notB notY
    obtain ⟨children, parent, _, _⟩ := fields c
    refine ⟨fun s' => ?_, ?_⟩
    · rw [children s', if_neg (by simp [notB]), if_neg (by simp [notA])]
    · rw [parent, bOther, if_neg notA, if_neg notY]
  have inX : ∀ c ∈ inorder x, SameLinks h (lvAvlTreeSingleRotation h a b s).1 c := by
    intro c member
    refine elsewhere c (fun same => aX (same ▸ member)) (fun same => bX (same ▸ member)) ?_
    exact fun isTop => xy c member (top_mem isTop)
  have inZ : ∀ c ∈ inorder z, SameLinks h (lvAvlTreeSingleRotation h a b s).1 c := by
    intro c member
    have apart : ∀ d ∈ inorder (branch s b x y), d ≠ c := by
      rintro d inNear rfl
      exact nearFar d inNear member
    refine elsewhere c (fun same => aFar (same ▸ member)) ?_ ?_
    · exact fun same => apart b (mem_inorder_branch.mpr (.inl rfl)) same.symm
    · exact fun isTop => apart c (mem_inorder_branch.mpr (.inr (.inr (top_mem isTop)))) rfl
  refine ⟨?_, ?_, fun c => (fields c).2.2.2, lvAvlTreeSingleRotation_data⟩
  · rw [linked_branch, linked_branch, top_branch, parentIs_branch, Side.other_other]
    obtain ⟨bChildren, _, _, _⟩ := fields b
    obtain ⟨aChildren, aParent, _, _⟩ := fields a
    refine ⟨?_, ?_, xParent.of_sameLinks inX, ?_, xLinked.of_sameLinks xNodup inX, ?_, ?_,
      zParent.of_sameLinks inZ, ?_, zLinked.of_sameLinks zNodup inZ, ?_⟩
    · rw [bChildren s, if_neg (by simp [otherNe]), if_neg (by simp [Ne.symm differ]), bNear]
    · rw [bChildren s.other, if_pos ⟨rfl, rfl⟩]
    · rw [aParent, if_pos rfl]
    · rw [aChildren s.other, if_neg (by simp [differ]), if_neg (by simp [otherNe.symm]), aOther]
    · rw [aChildren s, if_neg (by simp [differ]), if_pos ⟨rfl, rfl⟩, bOther]
    · intro c isTop
      have notA : c ≠ a := fun same => aY (same ▸ top_mem isTop)
      rw [(fields c).2.1, bOther, if_neg notA, if_pos isTop]
    · apply yLinked.congr yNodup
      · intro c member s'
        have notA : c ≠ a := fun same => aY (same ▸ member)
        have notB : c ≠ b := fun same => bY (same ▸ member)
        rw [(fields c).1 s', if_neg (by simp [notB]), if_neg (by simp [notA])]
      · intro c member notTop
        have notA : c ≠ a := fun same => aY (same ▸ member)
        rw [(fields c).2.1, bOther, if_neg notA, if_neg notTop]
  · intro c outside
    rw [mem_inorder_branch, not_or, not_or, mem_inorder_branch, not_or, not_or] at outside
    obtain ⟨notA, ⟨notB, _, notY⟩, _⟩ := outside
    have notTop : ¬ (h b).child s.other = some c := by
      rw [bOther]
      exact fun isTop => notY (top_mem isTop)
    simp only [lvAvlTreeSingleRotation]
    split <;> simp [Heap.modify_apply, Heap.reparent_apply, notA, notB, notTop]

end Single

section Double

variable {h : Heap} {s : Side} {a b c : Addr} {x p q z : BinaryTree Addr}

/-- The fields after a double rotation. -/
theorem lvAvlTreeDoubleRotation_fields (inner : (h b).child s.other = some c) (notA : c ≠ a) :
    ∃ h', lvAvlTreeDoubleRotation h a b s = some (h', c) ∧ h.SameData h' ∧ ∀ d,
      (∀ s', (h' d).child s' =
        if d = c ∧ s' = s.other then some a else if d = c ∧ s' = s then some b
        else if d = b ∧ s' = s.other then (h c).child s
        else if d = a ∧ s' = s then (h c).child s.other else (h d).child s') ∧
      (h' d).avl_parent =
        (if d = a ∨ d = b then some c else if (h c).child s = some d then some b
         else if (h c).child s.other = some d then some a else (h d).avl_parent) ∧
      (h' d).balance =
        (if d = c then .even
         else if d = b then if (h c).balance = .toward s.other then .toward s else .even
         else if d = a then if (h c).balance = .toward s then .toward s.other else .even
         else (h d).balance) ∧
      (h' d).descent_dir = (h d).descent_dir ∧
      (d ≠ a → d ≠ b → d ≠ c → (h c).child s ≠ some d → (h c).child s.other ≠ some d →
        h' d = h d) := by
  simp only [lvAvlTreeDoubleRotation, inner, Option.bind_eq_bind, Option.bind_some]
  have anchorChild : ((h.modify a (·.setChild s ((h c).child s.other))) c).child s =
      (h c).child s := by
    rw [Heap.setChild_child, if_neg (by simp [notA])]
  refine ⟨_, rfl, ?_, ?_⟩
  · rw [anchorChild]
    exact (Heap.SameData.refl h).setChild.setChild.setChild.setChild.reparent.reparent
      |>.setParent.setParent.setBalance.setBalance.setBalance
  · intro d
    rw [anchorChild]
    refine ⟨?_, ?_, ?_, ?_, ?_⟩
    · intro s'
      simp only [Heap.setBalance_child, Heap.setParent_child, Heap.reparent_child,
        Heap.setChild_child]
    · simp only [Heap.setBalance_parent, Heap.setParent_parent, Heap.reparent_parent,
        Heap.setChild_parent]
      by_cases isA : d = a <;> by_cases isB : d = b <;> simp [isA, isB]
    · simp only [Heap.setBalance_balance, Heap.setParent_balance, Heap.reparent_balance,
        Heap.setChild_balance]
    · simp
    · intro isA isB isC notLeft notRight
      simp [Heap.modify_apply, Heap.reparent_apply, isA, isB, isC, notLeft, notRight]

/-- A double rotation in memory. -/
theorem lvAvlTreeDoubleRotation_rotated
    (nodup : (inorder (branch s a (branch s b x (branch s c p q)) z)).Nodup)
    (linked : Linked h (branch s a (branch s b x (branch s c p q)) z)) :
    ∃ h', lvAvlTreeDoubleRotation h a b s = some (h', c) ∧
      Rotated h h' (branch s a (branch s b x (branch s c p q)) z)
        (branch s c (branch s b x p) (branch s a q z)) ∧
      (h' c).balance = .even ∧
      (h' a).balance = (if (h c).balance = .toward s then .toward s.other else .even) ∧
      (h' b).balance = (if (h c).balance = .toward s.other then .toward s else .even) ∧
      ∀ d, d ≠ a → d ≠ b → d ≠ c → (h' d).balance = (h d).balance := by
  obtain ⟨aNear, aFar, nearNodup, zNodup, nearFar⟩ := nodup_branch.mp nodup
  obtain ⟨bX, bInner, xNodup, innerNodup, xInner⟩ := nodup_branch.mp nearNodup
  obtain ⟨cP, cQ, pNodup, qNodup, pq⟩ := nodup_branch.mp innerNodup
  simp only [linked_branch, top_branch, parentIs_branch] at linked
  obtain ⟨_, aOther, bParent, zParent, ⟨bNear, bOther, xParent, cParent, xLinked, cNear, cOther,
    pParent, qParent, pLinked, qLinked⟩, zLinked⟩ := linked
  simp only [mem_inorder_branch, not_or] at aNear bInner
  obtain ⟨ab, aX, ac, aP, aQ⟩ := aNear
  obtain ⟨bc, bP, bQ⟩ := bInner
  obtain ⟨h', done, data, fields⟩ := lvAvlTreeDoubleRotation_fields (a := a) bOther (Ne.symm ac)
  rw [cNear, cOther] at fields
  have otherNe : s ≠ s.other := fun same => s.other_ne same.symm
  -- The nodes below `b` and `c` are none of those that are relinked.
  have elsewhere : ∀ d, d ≠ a → d ≠ b → d ≠ c → top p ≠ some d → top q ≠ some d →
      h' d = h d := fun d => (fields d).2.2.2.2
  have keep : ∀ d, h' d = h d → SameLinks h h' d := by
    intro d same
    rw [SameLinks, same]
    exact ⟨fun _ => rfl, rfl⟩
  have inX : ∀ d ∈ inorder x, SameLinks h h' d := by
    intro d member
    have apart : d ∉ inorder (branch s c p q) := xInner d member
    simp only [mem_inorder_branch, not_or] at apart
    refine keep d (elsewhere d (fun same => aX (same ▸ member)) (fun same => bX (same ▸ member))
      apart.1 ?_ ?_)
    · exact fun isTop => apart.2.1 (top_mem isTop)
    · exact fun isTop => apart.2.2 (top_mem isTop)
  have inZ : ∀ d ∈ inorder z, SameLinks h h' d := by
    intro d member
    have apart : d ∉ inorder (branch s b x (branch s c p q)) := fun inNear =>
      nearFar d inNear member
    simp only [mem_inorder_branch, not_or] at apart
    refine keep d (elsewhere d (fun same => aFar (same ▸ member)) apart.1 apart.2.2.1 ?_ ?_)
    · exact fun isTop => apart.2.2.2.1 (top_mem isTop)
    · exact fun isTop => apart.2.2.2.2 (top_mem isTop)
  -- The two inner subtrees keep their nodes' links and get another parent.
  have inP : ∀ d ∈ inorder p, d ≠ a ∧ d ≠ b ∧ d ≠ c ∧ top q ≠ some d := by
    intro d member
    refine ⟨fun same => aP (same ▸ member), fun same => bP (same ▸ member),
      fun same => cP (same ▸ member), fun isTop => pq d member (top_mem isTop)⟩
  have inQ : ∀ d ∈ inorder q, d ≠ a ∧ d ≠ b ∧ d ≠ c ∧ top p ≠ some d := by
    intro d member
    refine ⟨fun same => aQ (same ▸ member), fun same => bQ (same ▸ member),
      fun same => cQ (same ▸ member), fun isTop => pq d (top_mem isTop) member⟩
  refine ⟨h', done, ⟨?_, ?_, fun d => (fields d).2.2.2.1, data⟩, ?_, ?_, ?_, ?_⟩
  · simp only [linked_branch, top_branch, parentIs_branch]
    refine ⟨?_, ?_, ?_, ?_, ⟨?_, ?_, xParent.of_sameLinks inX, ?_,
      xLinked.of_sameLinks xNodup inX, ?_⟩, ?_, ?_, ?_, zParent.of_sameLinks inZ, ?_,
      zLinked.of_sameLinks zNodup inZ⟩
    · rw [(fields c).1, if_neg (by simp [otherNe]), if_pos ⟨rfl, rfl⟩]
    · rw [(fields c).1, if_pos ⟨rfl, rfl⟩]
    · rw [(fields b).2.1, if_pos (.inr rfl)]
    · rw [(fields a).2.1, if_pos (.inl rfl)]
    · rw [(fields b).1]
      simp [bc, otherNe, Ne.symm ab, bNear]
    · rw [(fields b).1]
      simp [bc]
    · intro d isTop
      obtain ⟨notA, notB, _, _⟩ := inP d (top_mem isTop)
      rw [(fields d).2.1, if_neg (by simp [notA, notB]), if_pos isTop]
    · apply pLinked.congr pNodup
      · intro d member s'
        obtain ⟨notA, notB, notC, _⟩ := inP d member
        rw [(fields d).1]
        simp [notA, notB, notC]
      · intro d member notTop
        obtain ⟨notA, notB, _, notQ⟩ := inP d member
        rw [(fields d).2.1, if_neg (by simp [notA, notB]), if_neg notTop, if_neg notQ]
    · rw [(fields a).1]
      simp [ac, ab]
    · rw [(fields a).1]
      simp [ac, ab, otherNe.symm, aOther]
    · intro d isTop
      obtain ⟨notA, notB, _, notP⟩ := inQ d (top_mem isTop)
      rw [(fields d).2.1, if_neg (by simp [notA, notB]), if_neg notP, if_pos isTop]
    · apply qLinked.congr qNodup
      · intro d member s'
        obtain ⟨notA, notB, notC, _⟩ := inQ d member
        rw [(fields d).1]
        simp [notA, notB, notC]
      · intro d member notTop
        obtain ⟨notA, notB, _, notP⟩ := inQ d member
        rw [(fields d).2.1, if_neg (by simp [notA, notB]), if_neg notP, if_neg notTop]
  · intro d outside
    simp only [mem_inorder_branch, not_or] at outside
    obtain ⟨notA, ⟨notB, _, notC, notP, notQ⟩, _⟩ := outside
    exact elsewhere d notA notB notC (fun isTop => notP (top_mem isTop))
      fun isTop => notQ (top_mem isTop)
  · rw [(fields c).2.2.1, if_pos rfl]
  · rw [(fields a).2.2.1, if_neg ac, if_neg ab, if_pos rfl]
  · rw [(fields b).2.2.1, if_neg bc, if_pos rfl]
  · intro d notA notB notC
    rw [(fields d).2.2.1, if_neg notC, if_neg notB, if_neg notA]

end Double

/-- The rotation chosen by the anchor's balance restores the balance of a node
whose side `s` is two too high. The subtree is one lower afterwards unless the
anchor was balanced, and the way to a node that made the anchor heavy stays
pointed out. -/
theorem rotation_balances {h : Heap} {s : Side} {a b : Addr} {near z : BinaryTree Addr}
    (isTop : top near = some b) (nodup : (inorder (branch s a near z)).Nodup)
    (linked : Linked h (branch s a near z)) (heavy : (h a).balance = .toward s)
    (nearBalanced : Balanced (fun c => (h c).balance) near)
    (farBalanced : Balanced (fun c => (h c).balance) z) (tall : near.height = z.height + 2) :
    ∃ h' c t',
      (if (h b).balance = .even ∨ (h b).balance = .toward s then
        some (lvAvlTreeSingleRotation h a b s) else lvAvlTreeDoubleRotation h a b s) =
          some (h', c) ∧
      top t' = some c ∧ Rotated h h' (branch s a near z) t' ∧
      inorder t' = inorder (branch s a near z) ∧ Balanced (fun c => (h' c).balance) t' ∧
      t'.height = (if (h b).balance = .even then z.height + 3 else z.height + 2) ∧
      ∀ n, (h a).descent_dir = s → (h b).balance = .toward (h b).descent_dir → b ≠ n →
        Leads (fun c => (h c).descent_dir) near n → Leads (fun c => (h' c).descent_dir) t' n := by
  obtain ⟨x, y, rfl⟩ : ∃ x y, near = branch s b x y := by
    cases near with
    | nil => cases isTop
    | node d l r =>
      obtain rfl := Option.some.inj isTop
      exact exists_branch s d l r
  obtain ⟨aNear, aFar, nearNodup, zNodup, nearFar⟩ := nodup_branch.mp nodup
  obtain ⟨bX, bY, _, yNodup, xy⟩ := nodup_branch.mp nearNodup
  rw [mem_inorder_branch, not_or, not_or] at aNear
  obtain ⟨ab, aX, aY⟩ := aNear
  have bZ : b ∉ inorder z := nearFar b (mem_inorder_branch.mpr (.inl rfl))
  by_cases single : (h b).balance = .even ∨ (h b).balance = .toward s
  · rw [if_pos single]
    have fields := fun c => lvAvlTreeSingleRotation_fields (h := h) (s := s) (a := a) (b := b) c
    have rotated := lvAvlTreeSingleRotation_rotated nodup linked
    have below : ∀ c, c ∈ inorder x ∨ c ∈ inorder y ∨ c ∈ inorder z →
        ((lvAvlTreeSingleRotation h a b s).1 c).balance = (h c).balance := by
      intro c member
      have notA : c ≠ a := by
        rintro rfl
        rcases member with inX | inY | inZ
        · exact aX inX
        · exact aY inY
        · exact aFar inZ
      have notB : c ≠ b := by
        rintro rfl
        rcases member with inX | inY | inZ
        · exact bX inX
        · exact bY inY
        · exact bZ inZ
      rw [(fields c).2.2.1]
      simp [notA, notB]
    have notOther : (h b).balance ≠ .toward s.other := by
      rcases single with even | toward
      · simp [even]
      · simpa [toward] using s.other_ne.symm
    have lowered : (h b).balance ≠ .even →
        ((lvAvlTreeSingleRotation h a b s).1 a).balance = .even ∧
          ((lvAvlTreeSingleRotation h a b s).1 b).balance = .even := by
      intro uneven
      constructor
      · rw [(fields a).2.2.1, if_pos uneven, if_pos (.inl rfl)]
      · rw [(fields b).2.2.1, if_pos uneven, if_pos (.inr rfl)]
    have kept : (h b).balance = .even →
        ((lvAvlTreeSingleRotation h a b s).1 a).balance = .toward s ∧
          ((lvAvlTreeSingleRotation h a b s).1 b).balance = .toward s.other := by
      intro even
      constructor
      · rw [(fields a).2.2.1, if_neg (not_not.mpr even), if_neg ab, heavy]
      · rw [(fields b).2.2.1, if_neg (not_not.mpr even), if_pos rfl]
    obtain ⟨balanced, height⟩ :=
      balanced_single nearBalanced farBalanced tall notOther below lowered kept
    have result : lvAvlTreeSingleRotation h a b s = ((lvAvlTreeSingleRotation h a b s).1, b) :=
      Prod.ext rfl (lvAvlTreeSingleRotation_root h a b s)
    refine ⟨_, b, _, congrArg some result, top_branch s b _ _, rotated, inorder_single s a b x y z, balanced, height,
      ?_⟩
    intro n _ towards differ leads
    rw [leads_branch] at leads
    have directions : (fun c => ((lvAvlTreeSingleRotation h a b s).1 c).descent_dir) =
        fun c => (h c).descent_dir := funext rotated.descent
    rw [directions]
    rcases leads with here | ⟨follows, inX⟩ | ⟨follows, _⟩
    · exact absurd here differ
    · exact inX.single follows
    · rw [follows] at towards
      exact absurd towards notOther
  · rw [if_neg single]
    rw [not_or] at single
    have other : (h b).balance = .toward s.other := by
      cases tilt : (h b).balance with
      | even => exact absurd tilt single.1
      | toward side =>
        have differ : side ≠ s := by
          rintro rfl
          exact single.2 tilt
        rw [Side.eq_other_of_ne differ]
    -- The inner child is there, because the anchor is heavier on its side.
    obtain ⟨c, p, q, rfl⟩ : ∃ c p q, y = branch s c p q := by
      cases y with
      | nil =>
        rw [balanced_branch, Tilt.fits_branch, other] at nearBalanced
        obtain ⟨⟨even, _⟩ | ⟨same, _⟩ | ⟨_, higher⟩, _⟩ := nearBalanced
        · cases even
        · exact absurd (Tilt.toward.inj same) s.other_ne
        · cases higher
      | node c l r =>
        obtain ⟨p, q, shape⟩ := exists_branch s c l r
        exact ⟨c, p, q, shape⟩
    obtain ⟨h', done, rotated, atC, atA, atB, elsewhere⟩ :=
      lvAvlTreeDoubleRotation_rotated nodup linked
    obtain ⟨cP, cQ, _, _, _⟩ := nodup_branch.mp yNodup
    have cX : c ∉ inorder x := fun inX => xy c inX (mem_inorder_branch.mpr (.inl rfl))
    have cZ : c ∉ inorder z := nearFar c
      (mem_inorder_branch.mpr (.inr (.inr (mem_inorder_branch.mpr (.inl rfl)))))
    simp only [mem_inorder_branch, not_or] at aY bY
    have below : ∀ d, d ∈ inorder x ∨ d ∈ inorder p ∨ d ∈ inorder q ∨ d ∈ inorder z →
        (h' d).balance = (h d).balance := by
      intro d member
      apply elsewhere d
      · rintro rfl
        rcases member with inX | inP | inQ | inZ
        · exact aX inX
        · exact aY.2.1 inP
        · exact aY.2.2 inQ
        · exact aFar inZ
      · rintro rfl
        rcases member with inX | inP | inQ | inZ
        · exact bX inX
        · exact bY.2.1 inP
        · exact bY.2.2 inQ
        · exact bZ inZ
      · rintro rfl
        rcases member with inX | inP | inQ | inZ
        · exact cX inX
        · exact cP inP
        · exact cQ inQ
        · exact cZ inZ
    obtain ⟨balanced, height⟩ := balanced_double nearBalanced farBalanced tall other
      below atC atA atB
    rw [if_neg single.1]
    refine ⟨h', c, _, done, top_branch s c _ _, rotated, inorder_double s a b c x p q z, balanced,
      height, ?_⟩
    intro n atTop towards differ leads
    rw [leads_branch] at leads
    have directions : (fun c => (h' c).descent_dir) = fun c => (h c).descent_dir :=
      funext rotated.descent
    rw [directions]
    rcases leads with here | ⟨follows, _⟩ | ⟨follows, inner⟩
    · exact absurd here differ
    · rw [follows, other] at towards
      exact absurd (Tilt.toward.inj towards) s.other_ne
    · exact inner.double atTop follows

end Ydb
