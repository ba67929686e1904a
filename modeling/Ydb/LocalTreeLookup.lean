import Ydb.LocalTreeLinks

/-!
# Lookups

A lookup leaves the tree as it is. It leaves the directions of the nodes above the
place where it ended pointed at that place, and a clue that names the place. The
clue carries the nearest keys on both sides, which hold as long as the subtree on
that side is empty; this is what lets the next lookup decide without a descent.
-/

namespace Ydb

open Lib BinaryTree

/-- The tree in memory is a balanced search tree over the given addresses. -/
structure LocalTree.WellFormed (t : LocalTree) (T : BinaryTree Addr) : Prop where
  root : t.lvt.avl_root = top T
  parentless : ParentIs t.heap T none
  linked : Linked t.heap T
  sorted : SortedBy (fun a => (t.heap a).subscript) T
  balanced : Balanced (fun a => (t.heap a).balance) T
  height : t.lvt.avl_height = T.height
  validKeys : ∀ a ∈ inorder T, (t.heap a).ValidKey

/-- Descents that follow the directions go through these frames. -/
def Followed (h : Heap) (fs : List (Frame Addr)) : Prop :=
  ∀ f ∈ fs, (h f.elem).descent_dir = f.side

/-- The clue describes the place of the node it names. A bound is only right
where the node has no subtree on that side. -/
def LocalTree.ClueAt (t : LocalTree) (T : BinaryTree Addr) (c : Addr) : Prop :=
  ∃ fs l r, T = plug fs (.node c l r) ∧ Followed t.heap fs ∧
    (l = .nil → t.lvt.lastLookup.lastNodeMin = nearest .left fs) ∧
    (r = .nil → t.lvt.lastLookup.lastNodeMax = nearest .right fs)

/-- A clue is in the tree, with true bounds. -/
def LocalTree.ClueOk (t : LocalTree) (T : BinaryTree Addr) : Prop :=
  ∀ c, t.lvt.lastLookup.lastNodeLookedUp = some c → t.ClueAt T c

/-- The place of an absent key: below `parent`, between the keys on its sides,
with the directions pointed at it. -/
def LocalTree.PlaceOf (t : LocalTree) (T : BinaryTree Addr) (key : LocalSubscript)
    (parent : Option Addr) : Prop :=
  ∃ fs, T = plug fs .nil ∧ parent = parentOf fs none ∧ Followed t.heap fs ∧
    t.lvt.lastLookup.lastNodeLookedUp = parent ∧
    ∀ s, ∀ a ∈ beyond s fs, s.Past key (t.heap a).subscript

/-! ## Directions may change -/

/-- The heaps differ in directions at most, apart from converted keys. -/
structure SameShape (h h' : Heap) : Prop where
  children : ∀ a s, (h' a).child s = (h a).child s
  parent : ∀ a, (h' a).avl_parent = (h a).avl_parent
  balance : ∀ a, (h' a).balance = (h a).balance
  data : h.SameData h'

namespace SameShape

theorem refl (h : Heap) : SameShape h h := ⟨fun _ _ => rfl, fun _ => rfl, fun _ => rfl, .refl h⟩

theorem trans {h h' h'' : Heap} (first : SameShape h h') (second : SameShape h' h'') :
    SameShape h h'' where
  children a s := (second.children a s).trans (first.children a s)
  parent a := (second.parent a).trans (first.parent a)
  balance a := (second.balance a).trans (first.balance a)
  data := first.data.trans second.data

theorem setDescent {h h' : Heap} (same : SameShape h h') (a : Addr) (d : Side) :
    SameShape h (h'.modify a (·.setDescent d)) where
  children x s := by rw [Heap.setDescent_child, same.children]
  parent x := by rw [Heap.setDescent_parent, same.parent]
  balance x := by rw [Heap.setDescent_balance, same.balance]
  data := same.data.setDescent

theorem subscript {h h' : Heap} (same : SameShape h h') (a : Addr) :
    (h' a).subscript = (h a).subscript := (same.data a).1

theorem sameLinks {h h' : Heap} (same : SameShape h h') (a : Addr) : SameLinks h h' a :=
  ⟨same.children a, same.parent a⟩

end SameShape

theorem LocalTree.WellFormed.nodup {t : LocalTree} {T : BinaryTree Addr} (wf : t.WellFormed T) :
    (inorder T).Nodup := wf.sorted.nodup

/-- Nothing of the tree depends on directions. -/
theorem LocalTree.WellFormed.of_sameShape {t t' : LocalTree} {T : BinaryTree Addr}
    (wf : t.WellFormed T) (shape : SameShape t.heap t'.heap)
    (root : t'.lvt.avl_root = t.lvt.avl_root) (height : t'.lvt.avl_height = t.lvt.avl_height) :
    t'.WellFormed T where
  root := root.trans wf.root
  parentless := wf.parentless.of_sameLinks fun a _ => shape.sameLinks a
  linked := wf.linked.of_sameLinks wf.nodup fun a _ => shape.sameLinks a
  sorted := by
    have keys : (fun a => (t'.heap a).subscript) = fun a => (t.heap a).subscript :=
      funext shape.subscript
    rw [keys]
    exact wf.sorted
  balanced := wf.balanced.congr fun a _ => shape.balance a
  height := height.trans wf.height
  validKeys a member := (shape.data a).2.2.2 (wf.validKeys a member)

/-- The pointers below a node of the tree are the roots of its subtrees. -/
theorem LocalTree.WellFormed.child {t : LocalTree} {fs : List (Frame Addr)} {s : Side} {a : Addr}
    {near far : BinaryTree Addr} (wf : t.WellFormed (plug fs (branch s a near far))) :
    (t.heap a).child s = top near := by
  have linked := (linked_plug.mp ⟨wf.root, wf.parentless, wf.linked⟩).2.2
  exact (linked_branch.mp linked).1

/-! ## One comparison -/

/-- The comparison orders a key against every node with a valid key. -/
def ComparesTo (key : TreeKeySubscr) (cmp : LvTreeNode → LvTreeNode × Int) : Prop :=
  ∀ b : LvTreeNode, b.ValidKey → Compares key b (cmp b)

theorem compareAt_spec {key : TreeKeySubscr} {cmp : LvTreeNode → LvTreeNode × Int}
    (compares : ComparesTo key cmp) (h : Heap) (a : Addr) (valid : (h a).ValidKey) :
    ∃ h' order, compareAt cmp h a = (h', order) ∧ SameShape h h' ∧
      (∀ x, (h' x).descent_dir = (h x).descent_dir) ∧
      Orders order key.subscript (h a).subscript := by
  obtain ⟨orders, node⟩ := compares (h a) valid
  refine ⟨Function.update h a (cmp (h a)).1, (cmp (h a)).2, rfl, ?_, ?_, orders⟩
  · have fields : ∀ x, (∀ s, (Function.update h a (cmp (h a)).1 x).child s = (h x).child s) ∧
        (Function.update h a (cmp (h a)).1 x).avl_parent = (h x).avl_parent ∧
        (Function.update h a (cmp (h a)).1 x).balance = (h x).balance ∧
        (h x).SameData (Function.update h a (cmp (h a)).1 x) := by
      intro x
      by_cases here : x = a
      · subst here
        rw [Function.update_self]
        rcases node with same | ⟨int, converted⟩
        · rw [same]
          exact ⟨fun _ => rfl, rfl, rfl, .refl _⟩
        · rw [converted]
          have data : (h x).SameData (lvAvlTreeNodeFltConv (h x)) := by
            refine ⟨lvAvlTreeNodeFltConv_subscript int, ?_, ?_,
              fun valid => lvAvlTreeNodeFltConv_validKey valid int⟩
            · unfold lvAvlTreeNodeFltConv
              split <;> rfl
            · unfold lvAvlTreeNodeFltConv
              split <;> rfl
          refine ⟨fun s => ?_, ?_, ?_, data⟩
          all_goals
            unfold lvAvlTreeNodeFltConv
            split <;> rfl
      · rw [Function.update_of_ne here]
        exact ⟨fun _ => rfl, rfl, rfl, .refl _⟩
    exact ⟨fun x => (fields x).1, fun x => (fields x).2.1, fun x => (fields x).2.2.1,
      fun x => (fields x).2.2.2⟩
  · intro x
    by_cases here : x = a
    · subst here
      rw [Function.update_self]
      rcases node with same | ⟨int, converted⟩
      · rw [same]
      · rw [converted]
        unfold lvAvlTreeNodeFltConv
        split <;> rfl
    · rw [Function.update_of_ne here]

/-- The direction in which a key lies from a node it differs from. -/
theorem Orders.past {order : Int} {x y : LocalSubscript} (orders : Orders order x y)
    (differ : order ≠ 0) : (if order < 0 then Side.left else Side.right).Past y x := by
  rcases orders with ⟨less, below⟩ | ⟨none, _⟩ | ⟨more, above⟩
  · rw [if_pos less]
    exact below
  · exact absurd none differ
  · rw [if_neg (by omega)]
    exact above

theorem Orders.eq {order : Int} {x y : LocalSubscript} (orders : Orders order x y)
    (same : order = 0) : x = y := by
  rcases orders with ⟨less, _⟩ | ⟨_, equal⟩ | ⟨more, _⟩
  · omega
  · exact equal
  · omega

/-- From a key on one side of a node, everything on the other side lies beyond. -/
theorem past_cons {h : Heap} {key : LocalSubscript} {fs : List (Frame Addr)} {s : Side} {a : Addr}
    {near far : BinaryTree Addr}
    (sorted : SortedBy (fun a => (h a).subscript) (plug fs (branch s a near far)))
    (past : s.Past (h a).subscript key)
    (outer : ∀ s', ∀ b ∈ beyond s' fs, s'.Past key (h b).subscript) :
    ∀ s', ∀ b ∈ beyond s' (⟨a, s, far⟩ :: fs), s'.Past key (h b).subscript := by
  obtain ⟨_, farPast, _⟩ := sorted.position
  intro s' b member
  rw [mem_beyond_cons] at member
  rcases member with outside | ⟨side, inside⟩
  · exact outer s' b outside
  · have flipped : s' = s.other := by rw [show s = s'.other from side, Side.other_other]
    subst flipped
    have atNode : s.other.Past key (h a).subscript := Side.past_other.mpr past
    rcases inside with rfl | inFar
    · exact atNode
    · exact atNode.trans (farPast b inFar)

/-! ## The descent -/

/-- Pointing a node's direction to one side extends the frames followed. -/
theorem Followed.cons {h : Heap} {fs : List (Frame Addr)} {s : Side} {a : Addr}
    {near far : BinaryTree Addr} (followed : Followed h fs)
    (nodup : (inorder (plug fs (branch s a near far))).Nodup) :
    Followed (h.modify a (·.setDescent s)) (⟨a, s, far⟩ :: fs) := by
  have apart := (nodup_plug nodup).2 a (mem_inorder_branch.mpr (.inl rfl))
  intro f member
  rw [Heap.setDescent_descent]
  rcases List.mem_cons.mp member with rfl | outer
  · rw [if_pos rfl]
  · rw [if_neg]
    · exact followed f outer
    · rintro rfl
      exact apart (frame_around outer)

theorem followed_nil (h : Heap) : Followed h [] := by
  intro f member
  cases member

theorem Followed.of_descent {h h' : Heap} {fs : List (Frame Addr)} (followed : Followed h fs)
    (same : ∀ x, (h' x).descent_dir = (h x).descent_dir) : Followed h' fs := by
  intro f member
  rw [same]
  exact followed f member

/-- The place where a descent ends, for the clue. -/
def Descent.EndsAt (d : Descent) (T : BinaryTree Addr) : Prop :=
  ∃ up l r, T = plug up (.node d.lastNodeLookedUp l r) ∧ Followed d.heap up ∧
    d.lastNodeMin = nearest .left up ∧ d.lastNodeMax = nearest .right up

/-- The bounds change only on the side that is left behind. -/
theorem nearest_step (s : Side) (a : Addr) (far : BinaryTree Addr) (fs : List (Frame Addr)) :
    nearest .left (⟨a, s, far⟩ :: fs) = s.pick (nearest .left fs) (some a) ∧
      nearest .right (⟨a, s, far⟩ :: fs) = s.pick (some a) (nearest .right fs) := by
  rw [nearest_cons, nearest_cons]
  cases s <;> exact ⟨rfl, rfl⟩

/-- A descent from any node of the tree ends at the key or at its place. -/
theorem descend_spec {key : TreeKeySubscr} {cmp : LvTreeNode → LvTreeNode × Int}
    (compares : ComparesTo key cmp) {t : LocalTree} {T : BinaryTree Addr} (wf : t.WellFormed T)
    (u : BinaryTree Addr) (fs : List (Frame Addr)) (h : Heap) (rounds : Nat) (node parent : Addr)
    (position : T = plug fs u) (isTop : top u = some node) (enough : u.height ≤ rounds)
    (shape : SameShape t.heap h) (followed : Followed h fs)
    (between : ∀ s, ∀ b ∈ beyond s fs, s.Past key.subscript (t.heap b).subscript) :
    ∃ d, descend cmp rounds h node parent (nearest .left fs) (nearest .right fs) = some d ∧
      SameShape t.heap d.heap ∧ d.EndsAt T ∧
      ((d.node = some d.lastNodeLookedUp ∧
          (t.heap d.lastNodeLookedUp).subscript = key.subscript) ∨
        (d.node = none ∧ d.parent = d.lastNodeLookedUp ∧
          ∃ fs', T = plug fs' .nil ∧ parentOf fs' none = some d.parent ∧ Followed d.heap fs' ∧
            ∀ s, ∀ b ∈ beyond s fs', s.Past key.subscript (t.heap b).subscript)) := by
  induction u generalizing fs h rounds node parent with
  | nil => cases isTop
  | node a l r leftHypothesis rightHypothesis =>
    obtain rfl := Option.some.inj isTop
    obtain ⟨rounds, rfl⟩ : ∃ n, rounds = n + 1 :=
      Nat.exists_eq_succ_of_ne_zero (by simp only [BinaryTree.height] at enough; omega)
    have inTree : a ∈ inorder T := by
      rw [position, mem_inorder_plug]
      exact .inl (by simp [inorder])
    obtain ⟨h', order, compared, step, descents, orders⟩ :=
      compareAt_spec compares h a ((shape.data a).2.2.2 (wf.validKeys a inTree))
    rw [shape.subscript] at orders
    have shape' := shape.trans step
    have followed' := followed.of_descent descents
    simp only [descend, compared]
    by_cases found : order = 0
    · rw [if_pos found]
      exact ⟨_, rfl, shape', ⟨fs, l, r, position, followed', rfl, rfl⟩,
        .inl ⟨rfl, (orders.eq found).symm⟩⟩
    · rw [if_neg found]
      have past := orders.past found
      generalize (if order < 0 then Side.left else Side.right) = dir at past ⊢
      -- Both directions descend into the near subtree.
      obtain ⟨near, far, split, near_cases⟩ : ∃ near far, BinaryTree.node a l r =
          branch dir a near far ∧ (near = l ∨ near = r) := by
        cases dir
        · exact ⟨l, r, rfl, .inl rfl⟩
        · exact ⟨r, l, rfl, .inr rfl⟩
      rw [split] at position enough
      have wf' := position ▸ wf
      have shape'' := shape'.setDescent a dir
      have followed'' := followed'.cons wf'.nodup
      have between' := past_cons wf'.sorted past between
      have position' : T = plug (⟨a, dir, far⟩ :: fs) near := position
      rw [Heap.setDescent_child, shape'.children, wf'.child]
      cases isNear : top near with
      | none =>
        have empty := top_eq_none.mp isNear
        refine ⟨_, rfl, shape'', ?_, .inr ⟨rfl, rfl, ⟨a, dir, far⟩ :: fs, ?_, rfl, followed'',
          between'⟩⟩
        · obtain ⟨_, _, back⟩ : ∃ l' r', branch dir a near far = .node a l' r' := ⟨l, r, split.symm⟩
          exact ⟨fs, _, _, by rw [position, back], fun f member =>
            followed'' f (List.mem_cons_of_mem _ member), rfl, rfl⟩
        · rw [position', empty]
      | some next =>
        obtain ⟨left, right⟩ := nearest_step dir a far fs
        dsimp only
        rw [← left, ← right]
        rw [height_branch] at enough
        rcases near_cases with rfl | rfl
        · exact leftHypothesis _ _ rounds next a position' isNear (by omega) shape'' followed''
            between'
        · exact rightHypothesis _ _ rounds next a position' isNear (by omega) shape'' followed''
            between'

/-! ## Whole lookups -/

/-- What a lookup leaves: the same tree, a clue that is right, and either a node
with the key, pointed out by the directions, or the place where the key belongs. -/
structure LookedUp (t : LocalTree) (T : BinaryTree Addr) (key : LocalSubscript) (t' : LocalTree)
    (node parent : Option Addr) : Prop where
  wellFormed : t'.WellFormed T
  clue : t'.ClueOk T
  shape : SameShape t.heap t'.heap
  outcome : (∃ n, node = some n ∧ (t'.heap n).subscript = key ∧
      Leads (fun a => (t'.heap a).descent_dir) T n) ∨
    (node = none ∧ t'.PlaceOf T key parent)

/-- The way down from a node. -/
theorem traverse_spec {key : TreeKeySubscr} {cmp : LvTreeNode → LvTreeNode × Int}
    (compares : ComparesTo key cmp) {t : LocalTree} {T : BinaryTree Addr} (wf : t.WellFormed T)
    (clueOk : t.ClueOk T) :
    ∃ t' node parent, traverse cmp t = some (t', node, parent) ∧
      LookedUp t T key.subscript t' node parent := by
  rw [traverse, wf.root]
  cases isTop : top T with
  | none =>
    have empty := top_eq_none.mp isTop
    refine ⟨t, none, none, rfl, wf, clueOk, .refl _,
      .inr ⟨rfl, [], empty, rfl, followed_nil _, ?_, ?_⟩⟩
    · cases clue : t.lvt.lastLookup.lastNodeLookedUp with
      | none => rfl
      | some c =>
        obtain ⟨fs, l, r, whole, _⟩ := clueOk c clue
        have member : c ∈ inorder T := by
          rw [whole, mem_inorder_plug]
          exact .inl (by simp [inorder])
        rw [empty] at member
        cases member
    · intro s a member
      cases s <;> cases member
  | some root =>
    have outside : ∀ s, ∀ b ∈ beyond s ([] : List (Frame Addr)),
        s.Past key.subscript (t.heap b).subscript := by
      intro s b member
      cases s <;> cases member
    obtain ⟨d, done, shape, ⟨up, l, r, place, followed, low, high⟩, outcome⟩ :=
      descend_spec compares wf T [] t.heap t.lvt.avl_height root root rfl isTop
        (le_of_eq wf.height.symm) (.refl _) (followed_nil _) outside
    have started : descend cmp t.lvt.avl_height t.heap root root none none = some d := done
    simp only [started, Option.bind_eq_bind, Option.bind_some]
    refine ⟨_, _, _, rfl, ?_⟩
    refine ⟨wf.of_sameShape shape rfl rfl, ?_, shape, ?_⟩
    · intro c isClue
      obtain rfl := Option.some.inj isClue
      exact ⟨up, l, r, place, followed, fun _ => low, fun _ => high⟩
    · rcases outcome with ⟨found, same⟩ | ⟨missing, parent, fs', hole, above, followed', between⟩
      · refine .inl ⟨_, found, ?_, up, l, r, place, followed⟩
        rw [shape.subscript]
        exact same
      · refine .inr ⟨missing, fs', hole, above.symm, followed', ?_, ?_⟩
        · exact congrArg some parent.symm
        · intro s a member
          rw [shape.subscript]
          exact between s a member

/-- The clue decides for keys that lie next to its node on an empty side. -/
theorem clue_place {h : Heap} {key : LocalSubscript} {fs : List (Frame Addr)} {s : Side}
    {c : Addr} {far : BinaryTree Addr}
    (sorted : SortedBy (fun a => (h a).subscript) (plug fs (branch s c .nil far)))
    (past : s.Past (h c).subscript key)
    (short : ∀ m, nearest s fs = some m → s.Past key (h m).subscript) :
    ∀ s', ∀ b ∈ beyond s' (⟨c, s, far⟩ :: fs), s'.Past key (h b).subscript := by
  obtain ⟨_, _, outer⟩ := sorted.position
  -- On the side of the key the nearest bound decides, on the other the clue does.
  apply past_cons sorted past
  intro s' b member
  by_cases side : s' = s
  · subst side
    cases bound : nearest s' fs with
    | none =>
      rw [beyond_of_nearest_none bound] at member
      cases member
    | some m =>
      rcases sorted.nearest bound b member with rfl | further
      · exact short b bound
      · exact (short m bound).trans further
  · have other := Side.eq_other_of_ne side
    subst other
    exact (Side.past_other.mpr past).trans (outer s.other b member)

/-- A lookup finds the key or its parent. -/
theorem lookupWith_spec {key : TreeKeySubscr} {cmp : LvTreeNode → LvTreeNode × Int}
    (compares : ComparesTo key cmp) {t : LocalTree} {T : BinaryTree Addr} (wf : t.WellFormed T)
    (clueOk : t.ClueOk T) (lookupParent : Option Addr) :
    ∃ t' node parent, lookupWith cmp t lookupParent = some (t', node, parent) ∧
      LookedUp t T key.subscript t' node parent := by
  rw [lookupWith]
  cases isClue : t.lvt.lastLookup.lastNodeLookedUp with
  | none => exact traverse_spec compares wf clueOk
  | some c =>
    obtain ⟨fs, l, r, whole, followed, low, high⟩ := clueOk c isClue
    have inTree : c ∈ inorder T := by
      rw [whole, mem_inorder_plug]
      exact .inl (by simp [inorder])
    obtain ⟨h, order, compared, shape, descents, orders⟩ :=
      compareAt_spec compares t.heap c (wf.validKeys c inTree)
    -- A heap that differs in converted keys only keeps the tree and the clue.
    have keeps : ∀ h', SameShape t.heap h' → (∀ x, (h' x).descent_dir = (t.heap x).descent_dir) →
        ({ t with heap := h' } : LocalTree).WellFormed T ∧
          ({ t with heap := h' } : LocalTree).ClueOk T := by
      intro h' shape' same
      refine ⟨wf.of_sameShape shape' rfl rfl, ?_⟩
      intro d isClue'
      obtain ⟨gs, l', r', whole', along, bounds⟩ := clueOk d isClue'
      exact ⟨gs, l', r', whole', along.of_descent same, bounds⟩
    -- Traversals start from such a heap.
    have traversed : ∀ h', SameShape t.heap h' →
        (∀ x, (h' x).descent_dir = (t.heap x).descent_dir) →
        ∃ t' node parent, traverse cmp { t with heap := h' } = some (t', node, parent) ∧
          LookedUp t T key.subscript t' node parent := by
      intro h' shape' same
      obtain ⟨wf', clue'⟩ := keeps h' shape' same
      obtain ⟨t', node, parent, done, looked⟩ := traverse_spec compares wf' clue'
      exact ⟨t', node, parent, done, looked.wellFormed, looked.clue, shape'.trans looked.shape,
        looked.outcome⟩
    -- A node found without a descent is the clue or above it.
    have foundAt : ∀ h' n, SameShape t.heap h' →
        (∀ x, (h' x).descent_dir = (t.heap x).descent_dir) →
        (t.heap n).subscript = key.subscript →
        Leads (fun a => (t.heap a).descent_dir) T n → LookedUp t T key.subscript
          { t with heap := h' } (some n) lookupParent := by
      intro h' n shape' same equal leads
      obtain ⟨wf', clue'⟩ := keeps h' shape' same
      refine ⟨wf', clue', shape', .inl ⟨n, rfl, ?_, leads.congr fun b _ => same b⟩⟩
      rw [shape'.subscript]
      exact equal
    simp only [compared]
    by_cases found : order = 0
    · rw [if_pos found]
      exact ⟨_, _, _, rfl, foundAt h c shape descents (orders.eq found).symm
        ⟨fs, l, r, whole, followed⟩⟩
    · rw [if_neg found]
      have past := orders.past found
      have sides : (if 0 < order then Side.right else Side.left) =
          if order < 0 then Side.left else Side.right := by
        rcases lt_trichotomy order 0 with less | none | more
        · rw [if_pos less, if_neg (by omega)]
        · exact absurd none found
        · rw [if_pos more, if_neg (by omega)]
      rw [sides]
      generalize (if order < 0 then Side.left else Side.right) = dir at past ⊢
      obtain ⟨near, far, split, bound⟩ : ∃ near far, BinaryTree.node c l r =
          branch dir c near far ∧ (near = .nil →
            dir.pick t.lvt.lastLookup.lastNodeMin t.lvt.lastLookup.lastNodeMax =
              nearest dir fs) := by
        cases dir
        · exact ⟨l, r, rfl, low⟩
        · exact ⟨r, l, rfl, high⟩
      rw [split] at whole
      have wf' := whole ▸ wf
      rw [shape.children, wf'.child]
      by_cases empty : top near = none
      · have noNear := top_eq_none.mp empty
        rw [if_pos empty, bound noNear]
        subst noNear
        -- The place next to the clue, when the key does not reach the bound.
        have placed : ∀ h', SameShape t.heap h' →
            (∀ x, (h' x).descent_dir = (t.heap x).descent_dir) →
            (∀ m, nearest dir fs = some m → dir.Past key.subscript (t.heap m).subscript) →
            LookedUp t T key.subscript
              { t with heap := h'.modify c (·.setDescent dir) } none (some c) := by
          intro h' shape' same short
          have followed' := (followed.of_descent same).cons wf'.nodup
          have shape'' := shape'.setDescent c dir
          refine ⟨wf.of_sameShape shape'' rfl rfl, ?_, shape'', .inr ⟨rfl, ⟨c, dir, far⟩ :: fs,
            whole, rfl, followed', isClue, ?_⟩⟩
          · intro d isClue'
            obtain rfl := Option.some.inj (isClue.symm.trans isClue')
            refine ⟨fs, l, r, by rw [whole, split], ?_, low, high⟩
            exact fun f member => followed' f (List.mem_cons_of_mem _ member)
          · intro s b member
            have ordered := clue_place wf'.sorted past short s b member
            rw [show ((h'.modify c (·.setDescent dir)) b).subscript = (t.heap b).subscript from
              shape''.subscript b]
            exact ordered
        cases isBound : nearest dir fs with
        | none =>
          exact ⟨_, _, _, rfl, placed h shape descents (by simp [isBound])⟩
        | some m =>
          obtain ⟨inner, f, outer, frames, isFrame⟩ := nearest_frame isBound
          have above : Leads (fun a => (t.heap a).descent_dir) T m := by
            rw [whole, frames, plug_append, plug_cons, ← isFrame]
            apply Leads.within (leads_root _ f.side f.elem _ _)
            exact fun g member => followed g (by rw [frames]; simp [member])
          obtain ⟨h₂, order₂, compared₂, shape₂, descents₂, orders₂⟩ :=
            compareAt_spec compares h m ((shape.data m).2.2.2 (wf.validKeys m above.mem))
          rw [shape.subscript] at orders₂
          have shape' := shape.trans shape₂
          have same' := fun x => (descents₂ x).trans (descents x)
          simp only [compared₂]
          by_cases found₂ : order₂ = 0
          · rw [if_pos found₂]
            exact ⟨_, _, _, rfl, foundAt h₂ m shape' same' (orders₂.eq found₂).symm above⟩
          · rw [if_neg found₂]
            have past₂ := orders₂.past found₂
            split
            next inside =>
              refine ⟨_, _, _, rfl, placed h₂ shape' same' ?_⟩
              intro m' isBound'
              obtain rfl := Option.some.inj (isBound.symm.trans isBound')
              cases dir
              · have more : 0 < order₂ := by simpa [Side.pick] using inside
                rw [if_neg (by omega)] at past₂
                exact past₂
              · have less : order₂ < 0 := by simpa [Side.pick] using inside
                rw [if_pos less] at past₂
                exact past₂
            next => exact traversed h₂ shape' same'
      · rw [if_neg empty]
        exact traversed h shape descents

/-- Every lookup, whatever the kind of the subscript. -/
theorem lvAvlTreeLookup_spec {key : TreeKeySubscr} (valid : key.Valid) {t : LocalTree}
    {T : BinaryTree Addr} (wf : t.WellFormed T) (clueOk : t.ClueOk T)
    (lookupParent : Option Addr) :
    ∃ t' node parent, lvAvlTreeLookup t key lookupParent = some (t', node, parent) ∧
      LookedUp t T key.subscript t' node parent := by
  rw [lvAvlTreeLookup]
  by_cases canonical : key.canonical = true
  · rw [if_pos canonical]
    rcases valid canonical with isInt | isFloat
    · rw [if_pos isInt.int]
      exact lookupWith_spec (fun b bValid => LV_AVL_TREE_INTKEY_CMP_compares isInt canonical bValid)
        wf clueOk lookupParent
    · rw [if_neg (by simp [isFloat.int])]
      exact lookupWith_spec
        (fun b bValid => LV_AVL_TREE_NUMKEY_CMP_compares isFloat canonical bValid)
        wf clueOk lookupParent
  · rw [if_neg canonical]
    exact lookupWith_spec
      (fun b _ => LV_AVL_TREE_STRKEY_CMP_compares (Bool.eq_false_of_not_eq_true canonical))
      wf clueOk lookupParent

end Ydb
