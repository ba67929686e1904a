import Ydb.LocalTreeInsert

/-!
# Deletion

A node without a right subtree is replaced by its left one. Any other node is
replaced by its successor, which is first taken from the bottom of the right
subtree. One subtree has become lower then, and the balancing act climbs from it
along the directions: past nodes that leaned towards it, which become even and
lower, and through rotations, until a node keeps its height.
-/

namespace Ydb

open Lib BinaryTree

/-! ## The balancing act -/

/-- The subtree at a position of a balanced tree has become one lower. -/
structure Shrunk (t : LocalTree) (fs : List (Frame Addr)) (u : BinaryTree Addr) (k : Nat) :
    Prop where
  focus : Focus t fs u k
  balanced : Balanced (fun a => (t.heap a).balance) u
  low : u.height + 1 = k
  height : ∃ w : BinaryTree Addr, w.height = k ∧ t.lvt.avl_height = (plug fs w).height

/-- A balanced tree in memory with the given elements in order. -/
structure Restored (t t' : LocalTree) (elements : List Addr) (T' : BinaryTree Addr) : Prop where
  root : t'.lvt.avl_root = top T'
  parentless : ParentIs t'.heap T' none
  linked : Linked t'.heap T'
  order : inorder T' = elements
  balanced : Balanced (fun a => (t'.heap a).balance) T'
  height : t'.lvt.avl_height = T'.height
  data : t.heap.SameData t'.heap

/-- A position whose subtree has the height that the frames expect. -/
theorem Focus.restored {t : LocalTree} {fs : List (Frame Addr)} {u : BinaryTree Addr}
    (focus : Focus t fs u u.height) (balanced : Balanced (fun a => (t.heap a).balance) u)
    (height : t.lvt.avl_height = (plug fs u).height) :
    Restored t t (inorder (plug fs u)) (plug fs u) := by
  obtain ⟨root, parentless, linked⟩ := linked_plug.mpr ⟨focus.segment, focus.parent, focus.linked⟩
  exact ⟨root, parentless, linked, rfl, balanced_plug.mpr ⟨focus.frames, balanced⟩, height, .refl _⟩

/-- Another balance for the innermost frame, as part of the subtree above it. -/
theorem Focus.setBalance {t : LocalTree} {f : Frame Addr} {up : List (Frame Addr)}
    {u : BinaryTree Addr} {k : Nat} (focus : Focus t (f :: up) u k) (b : Tilt)
    (balanced : Balanced (fun a => (t.heap a).balance) u)
    (fits : b.Fits (f.side.pick u.height f.sibling.height) (f.side.pick f.sibling.height u.height)) :
    ∃ t', t' = { t with heap := t.heap.modify f.elem (·.setBalance b) } ∧
      Focus t' up (f.fill u) (max k f.sibling.height + 1) ∧
      Balanced (fun a => (t'.heap a).balance) (f.fill u) ∧ t.heap.SameData t'.heap := by
  have filled : (inorder (plug up (f.fill u))).Nodup := focus.nodup
  obtain ⟨inner, apart⟩ := nodup_plug filled
  obtain ⟨notInside, notBeside, _, _, _⟩ := nodup_branch.mp inner
  have notAbove := apart f.elem (mem_inorder_branch.mpr (.inl rfl))
  have only := (OnlyBalance.refl t.heap).setBalance f.elem b
  have elsewhere : ∀ a, a ≠ f.elem →
      ((t.heap.modify f.elem (·.setBalance b)) a).balance = (t.heap a).balance := by
    intro a differ
    rw [Heap.setBalance_balance, if_neg differ]
  obtain ⟨near, far, beside, siblingLinked, above, rest⟩ := focus.segment
  obtain ⟨_, siblingBalanced, outer⟩ := focus.frames
  refine ⟨_, rfl, ⟨?_, ?_, ?_, filled, ?_, ?_⟩, ?_, only.data⟩
  · rw [Frame.fill, top_branch]
    exact rest.of_sameLinks filled fun a _ => only.links a
  · rw [Frame.fill, parentIs_branch, Heap.setBalance_parent]
    exact above
  · have linked : Linked t.heap (f.fill u) :=
      linked_branch.mpr ⟨near, far, focus.parent, beside, focus.linked, siblingLinked⟩
    exact linked.of_sameLinks inner fun a _ => only.links a
  · intro g member
    rw [Heap.setBalance_descent]
    exact focus.followed g (List.mem_cons_of_mem f member)
  · exact outer.congr fun a outside => elsewhere a fun same => notAbove (same ▸ outside)
  · rw [Frame.fill, balanced_branch]
    refine ⟨?_, ?_, ?_⟩
    · have here : ((t.heap.modify f.elem (·.setBalance b)) f.elem).balance = b := by
        rw [Heap.setBalance_balance, if_pos rfl]
      show ((t.heap.modify f.elem (·.setBalance b)) f.elem).balance.Fits _ _
      rw [here]
      exact fits
    · exact balanced.congr fun a member => elsewhere a fun same => notInside (same ▸ member)
    · exact siblingBalanced.congr fun a member => elsewhere a fun same => notBeside (same ▸ member)

theorem Restored.after {t t' t'' : LocalTree} {elements : List Addr} {T : BinaryTree Addr}
    (data : t.heap.SameData t'.heap) (restored : Restored t' t'' elements T) :
    Restored t t'' elements T :=
  ⟨restored.root, restored.parentless, restored.linked, restored.order, restored.balanced,
    restored.height, data.trans restored.data⟩

/-- The balancing act restores the tree. -/
theorem balanceUp_spec (rounds : Nat) (t : LocalTree) (fs : List (Frame Addr))
    (u : BinaryTree Addr) (k : Nat) (enough : fs.length < rounds) (shrunk : Shrunk t fs u k) :
    ∃ t' T', balanceUp rounds t (parentOf fs none) = some t' ∧
      Restored t t' (inorder (plug fs u)) T' := by
  induction rounds generalizing t fs u k with
  | zero => cases enough
  | succ rounds ih =>
    obtain ⟨focus, balanced, low, w, wHeight, height⟩ := shrunk
    cases fs with
    | nil =>
      refine ⟨_, u, rfl, focus.segment, focus.parent, focus.linked, rfl, balanced, ?_, .refl _⟩
      show t.lvt.avl_height - 1 = u.height
      rw [height, plug_nil]
      omega
    | cons f up =>
      have follows : (t.heap f.elem).descent_dir = f.side :=
        focus.followed f (List.mem_cons_self ..)
      obtain ⟨near, far, beside, siblingLinked, above, rest⟩ := focus.segment
      obtain ⟨fits, siblingBalanced, outer⟩ := focus.frames
      have shorter : up.length < rounds := by
        simp only [List.length_cons] at enough
        omega
      simp only [parentOf, balanceUp, follows]
      rcases (Tilt.fits_branch _ _ _).mp fits with ⟨even, same⟩ | ⟨towards, higher⟩ | ⟨away, lower⟩
      · -- An even node leans away from the lower subtree and keeps its height.
        rw [if_pos even]
        obtain ⟨t', shape, focus', balanced', data⟩ := focus.setBalance (.toward f.side.other)
          balanced ((Tilt.fits_branch _ _ _).mpr (.inr (.inr ⟨rfl, by omega⟩)))
        have heights : (f.fill u).height = max k f.sibling.height + 1 := by
          rw [Frame.fill, height_branch]
          omega
        rw [← heights] at focus'
        refine ⟨t', _, by rw [shape], (focus'.restored balanced' ?_).after data⟩
        rw [shape]
        show t.lvt.avl_height = _
        rw [height, plug_cons]
        apply height_plug_congr
        rw [heights, Frame.fill, height_branch, wHeight]
      · -- A node that leaned towards it becomes even and lower.
        have uneven : (t.heap f.elem).balance ≠ .even := by
          intro even
          cases even.symm.trans towards
        rw [if_neg uneven, if_pos towards, above]
        obtain ⟨t', shape, focus', balanced', data⟩ := focus.setBalance .even balanced
          ((Tilt.fits_branch _ _ _).mpr (.inl ⟨rfl, by omega⟩))
        have shrunk' : Shrunk t' up (f.fill u) (max k f.sibling.height + 1) := by
          refine ⟨focus', balanced', ?_, f.fill w, ?_, ?_⟩
          · rw [Frame.fill, height_branch]
            omega
          · rw [Frame.fill, height_branch]
            omega
          · rw [shape]
            exact height
        obtain ⟨t'', T'', done, restored⟩ := ih t' up _ _ shorter shrunk'
        rw [shape] at done
        exact ⟨t'', T'', done, restored.after data⟩
      · have uneven : (t.heap f.elem).balance ≠ .even := by
          intro even
          cases even.symm.trans away
        have notTowards : (t.heap f.elem).balance ≠ .toward f.side := by
          intro towards
          exact f.side.other_ne (Tilt.toward.inj (away.symm.trans towards))
        obtain ⟨b, isTop⟩ : ∃ b, top f.sibling = some b := by
          cases isTop : top f.sibling with
          | none =>
            rw [top_eq_none.mp isTop] at lower
            cases lower
          | some b => exact ⟨b, rfl⟩
        rw [if_neg uneven, if_neg notTowards, far, isTop, above]
        have filled : Focus t up (branch f.side.other f.elem f.sibling u)
            (max k f.sibling.height + 1) := by
          rw [branch_other]
          refine ⟨?_, ?_, ?_, focus.nodup, ?_, outer⟩
          · rw [top_branch]
            exact rest
          · rw [parentIs_branch]
            exact above
          · exact linked_branch.mpr ⟨near, far, focus.parent, beside, focus.linked, siblingLinked⟩
          · exact fun g member => focus.followed g (List.mem_cons_of_mem f member)
        obtain ⟨h', c, u', chosen, t', shape, focus', relinked, order, balanced', newHeight, _⟩ :=
          filled.rotate isTop away siblingBalanced balanced (by omega)
        have sameOrder : inorder (plug up u') = inorder (plug (f :: up) u) := by
          rw [plug_cons, inorder_plug, inorder_plug, order, branch_other]
          rfl
        have oldHeight : t'.lvt.avl_height = (plug up (f.fill w)).height := by
          rw [relinked.height, height]
          rfl
        have filledHeight : (f.fill w).height = max k f.sibling.height + 1 := by
          rw [Frame.fill, height_branch, wHeight]
        -- The chosen rotation and the relinking give `t'`.
        have result : ∀ {β : Type} (F : Heap × Addr → Option β),
            (if (t.heap b).balance = .even ∨ (t.heap b).balance = .toward f.side.other then
              F (lvAvlTreeSingleRotation t.heap f.elem b f.side.other)
            else (lvAvlTreeDoubleRotation t.heap f.elem b f.side.other).bind F) = F (h', c) := by
          intro β F
          split at chosen
          next single => rw [if_pos single, Option.some.inj chosen]
          next double =>
            rw [if_neg double, chosen]
            rfl
        simp only [Option.bind_eq_bind, Option.bind_some]
        rw [result fun rotated => if (t.heap b).balance = .even then
            some (LocalTree.replaceChild
              { t with heap := rotated.1.modify rotated.2 (·.setParent (parentOf up none)) }
              (parentOf up none) (some rotated.2))
          else balanceUp rounds (LocalTree.replaceChild
              { t with heap := rotated.1.modify rotated.2 (·.setParent (parentOf up none)) }
              (parentOf up none) (some rotated.2)) (parentOf up none)]
        rw [← shape]
        by_cases even : (t.heap b).balance = .even
        · rw [if_pos even] at newHeight ⊢
          have heights : u'.height = max k f.sibling.height + 1 := by omega
          rw [← heights] at focus' filledHeight
          refine ⟨t', plug up u', rfl, ?_⟩
          rw [← sameOrder]
          refine (focus'.restored balanced' ?_).after relinked.data
          rw [oldHeight]
          exact height_plug_congr filledHeight
        · rw [if_neg even] at newHeight ⊢
          have shrunk' : Shrunk t' up u' (max k f.sibling.height + 1) :=
            ⟨focus', balanced', by omega, f.fill w, filledHeight, oldHeight⟩
          obtain ⟨t'', T'', done, restored⟩ := ih t' up _ _ shorter shrunk'
          rw [sameOrder] at restored
          exact ⟨t'', T'', done, restored.after relinked.data⟩

/-! ## Taking a node out -/

/-- Walking left inside a subtree ends at its least node, with the directions of
the nodes passed pointed left. -/
theorem walkLeft_spec (u : BinaryTree Addr) (h : Heap) (rounds : Nat) (a : Addr)
    (isTop : top u = some a) (enough : u.height ≤ rounds) (linked : Linked h u)
    (nodup : (inorder u).Nodup) :
    ∃ h' m mr gs, walkLeft rounds h a = some (h', m) ∧ u = plug gs (.node m .nil mr) ∧
      (∀ f ∈ gs, f.side = .left) ∧ Followed h' gs ∧ SameShape h h' ∧
      ∀ x, x ∉ inorder u → (h' x).descent_dir = (h x).descent_dir := by
  induction u generalizing h rounds a with
  | nil => cases isTop
  | node b l r leftHypothesis _ =>
    obtain rfl := Option.some.inj isTop
    obtain ⟨rounds, rfl⟩ : ∃ n, rounds = n + 1 :=
      Nat.exists_eq_succ_of_ne_zero (by simp only [BinaryTree.height] at enough; omega)
    obtain ⟨left, _, _, _, leftLinked, _⟩ := linked
    obtain ⟨notLeft, _, leftNodup, _, _⟩ := nodup_branch.mp
      (show (inorder (branch .left b l r)).Nodup from nodup)
    rw [walkLeft, left]
    cases isLeft : top l with
    | none =>
      refine ⟨h, b, r, [], rfl, by rw [top_eq_none.mp isLeft]; rfl, ?_, followed_nil h, .refl h,
        fun _ _ => rfl⟩
      intro f member
      cases member
    | some c =>
      have shape := (SameShape.refl h).setDescent b .left
      have linked' : Linked (h.modify b (·.setDescent .left)) l :=
        leftLinked.of_sameLinks leftNodup fun x _ => shape.sameLinks x
      obtain ⟨h', m, mr, gs, done, below, sides, followed, shape', elsewhere⟩ :=
        leftHypothesis (h.modify b (·.setDescent .left)) rounds c isLeft
          (by simp only [BinaryTree.height] at enough; omega) linked' leftNodup
      have atB : (h' b).descent_dir = .left := by
        rw [elsewhere b notLeft, Heap.setDescent_descent, if_pos rfl]
      refine ⟨h', m, mr, gs ++ [⟨b, .left, r⟩], done, ?_, ?_, ?_, shape.trans shape', ?_⟩
      · rw [plug_append, ← below]
        rfl
      · intro f member
        rcases List.mem_append.mp member with inner | last
        · exact sides f inner
        · rw [List.mem_singleton.mp last]
      · intro f member
        rcases List.mem_append.mp member with inner | last
        · exact followed f inner
        · rw [List.mem_singleton.mp last]
          exact atB
      · intro x outside
        have differ : x ≠ b := by
          rintro rfl
          exact outside (by simp [inorder])
        rw [elsewhere x fun inside => outside (by simp [inorder, inside]),
          Heap.setDescent_descent, if_neg differ]

/-- The frames to the left of which nothing is. -/
theorem before_of_left {gs : List (Frame Addr)} (sides : ∀ f ∈ gs, f.side = .left) :
    before gs = [] := by
  induction gs with
  | nil => rfl
  | cons f up ih =>
    rw [before, ih fun g member => sides g (List.mem_cons_of_mem f member),
      sides f (List.mem_cons_self ..)]
    rfl

/-- A frame may get another element with the same tilt. -/
theorem balancedFrames_rename {tilt tilt' : Addr → Tilt} {gs fs : List (Frame Addr)} {n m : Addr}
    {s : Side} {x : BinaryTree Addr} {k : Nat}
    (balanced : BalancedFrames tilt (gs ++ ⟨n, s, x⟩ :: fs) k) (here : tilt' m = tilt n)
    (inner : ∀ a, Around gs a → tilt' a = tilt a) (beside : ∀ a ∈ inorder x, tilt' a = tilt a)
    (outer : ∀ a, Around fs a → tilt' a = tilt a) :
    BalancedFrames tilt' (gs ++ ⟨m, s, x⟩ :: fs) k := by
  induction gs generalizing k with
  | nil =>
    obtain ⟨fits, sibling, rest⟩ := balanced
    refine ⟨?_, sibling.congr beside, rest.congr outer⟩
    show (tilt' m).Fits _ _
    rw [here]
    exact fits
  | cons g up ih =>
    obtain ⟨fits, sibling, rest⟩ := balanced
    refine ⟨?_, ?_, ih rest fun a around => inner a
      (around_cons.mpr (.inr (.inr around)))⟩
    · rw [inner g.elem (around_cons.mpr (.inl rfl))]
      exact fits
    · exact sibling.congr fun a member => inner a (around_cons.mpr (.inr (.inl member)))

theorem height_plug_rename {gs fs : List (Frame Addr)} {n m : Addr} {s : Side}
    {x w : BinaryTree Addr} :
    (plug (gs ++ ⟨n, s, x⟩ :: fs) w).height = (plug (gs ++ ⟨m, s, x⟩ :: fs) w).height := by
  rw [plug_append, plug_append, plug_cons, plug_cons]
  apply height_plug_congr
  rw [Frame.fill, Frame.fill, height_branch, height_branch]

/-- A tree without one node, with a subtree that became lower. -/
structure Unlinked (t : LocalTree) (node : Addr) (T : BinaryTree Addr) (t' : LocalTree)
    (fs : List (Frame Addr)) (u : BinaryTree Addr) (k : Nat) : Prop where
  shrunk : Shrunk t' fs u k
  order : ∃ front back, inorder T = front ++ node :: back ∧ inorder (plug fs u) = front ++ back
  data : t.heap.SameData t'.heap

/-- Nodes that are the same keep their links. -/
theorem sameLinks_of_eq {h h' : Heap} {a : Addr} (same : h' a = h a) : SameLinks h h' a := by
  rw [SameLinks, same]
  exact ⟨fun _ => rfl, rfl⟩

/-- Giving a whole subtree another parent. -/
theorem reparent_tree {h : Heap} {u : BinaryTree Addr} (linked : Linked h u)
    (nodup : (inorder u).Nodup) (p : Option Addr) :
    ParentIs (h.reparent (top u) p) u p ∧ Linked (h.reparent (top u) p) u := by
  constructor
  · intro a isTop
    rw [Heap.reparent_parent, if_pos isTop]
  · apply linked.congr nodup
    · intro a _ s
      rw [Heap.reparent_child]
    · intro a _ notTop
      rw [Heap.reparent_parent, if_neg notTop]

theorem reparent_outside {h : Heap} {u : BinaryTree Addr} {p : Option Addr} {a : Addr}
    (outside : a ∉ inorder u) : h.reparent (top u) p a = h a := by
  rw [Heap.reparent_apply, if_neg fun isTop => outside (top_mem isTop)]

/-- A node without a right subtree. -/
theorem unlinkNode_of_right_nil {t : LocalTree} {fs : List (Frame Addr)} {n : Addr}
    {l : BinaryTree Addr} (wf : t.WellFormed (plug fs (.node n l .nil)))
    (followed : Followed t.heap fs) :
    ∃ t', unlinkNode t n = some (t', parentOf fs none) ∧
      Unlinked t n (plug fs (.node n l .nil)) t' fs l (l.height + 1) := by
  obtain ⟨segment, parent, linked⟩ := linked_plug.mp ⟨wf.root, wf.parentless, wf.linked⟩
  obtain ⟨left, right, leftParent, _, leftLinked, _⟩ := linked
  have above : (t.heap n).avl_parent = parentOf fs none := parent n rfl
  obtain ⟨inner, apart⟩ := nodup_plug wf.nodup
  have flat : ∀ u : BinaryTree Addr, inorder (plug fs u) = before fs ++ (inorder u ++ after fs) :=
    inorder_plug fs
  have split : inorder (plug fs (.node n l .nil)) =
      (before fs ++ inorder l) ++ n :: after fs := by
    rw [flat]
    simp [inorder]
  have order : inorder (plug fs l) = (before fs ++ inorder l) ++ after fs := by
    rw [flat, List.append_assoc]
  have nodup : (inorder (plug fs l)).Nodup := by
    have old := wf.nodup
    rw [split] at old
    rw [order]
    exact (List.nodup_cons.mp (List.perm_middle.nodup_iff.mp old)).2
  obtain ⟨leftNodup, leftApart⟩ := nodup_plug nodup
  obtain ⟨framesBalanced, fits, leftBalanced, _⟩ := balanced_plug.mp wf.balanced
  have inLeft : ∀ a ∈ inorder l,
      (t.replaceChild (parentOf fs none) (top l)).heap a = t.heap a :=
    fun a member => replaceChild_of_not_around (leftApart a member)
  have linked₁ : Linked (t.replaceChild (parentOf fs none) (top l)).heap l :=
    leftLinked.of_sameLinks leftNodup fun a member => sameLinks_of_eq (inLeft a member)
  obtain ⟨parent₂, linked₂⟩ := reparent_tree linked₁ leftNodup (parentOf fs none)
  have outside : ∀ a, Around fs a →
      (t.replaceChild (parentOf fs none) (top l)).heap.reparent (top l) (parentOf fs none) a =
        (t.replaceChild (parentOf fs none) (top l)).heap a :=
    fun a around => reparent_outside fun member => leftApart a member around
  refine ⟨{ t.replaceChild (parentOf fs none) (top l) with
    heap := (t.replaceChild (parentOf fs none) (top l)).heap.reparent (top l) (parentOf fs none) },
    ?_, ⟨⟨?_, parent₂, linked₂, nodup, ?_, ?_⟩, ?_, rfl, .node n l .nil, ?_, ?_⟩,
    ⟨_, _, split, order⟩, ?_⟩
  · simp only [unlinkNode, left, right, above]
    rfl
  · have replaced := replaceChild_segment (c := top l) segment followed nodup
    exact replaced.of_sameLinks nodup fun a around => sameLinks_of_eq (outside a around)
  · intro f member
    dsimp only
    rw [Heap.reparent_descent, replaceChild_descent]
    exact followed f member
  · rw [show (BinaryTree.node n l .nil).height = l.height + 1 by simp [BinaryTree.height]]
      at framesBalanced
    apply framesBalanced.congr
    intro a _
    dsimp only
    rw [Heap.reparent_balance, replaceChild_balance]
  · apply leftBalanced.congr
    intro a _
    dsimp only
    rw [Heap.reparent_balance, replaceChild_balance]
  · simp [BinaryTree.height]
  · rw [replaceChild_height]
    exact wf.height
  · exact (replaceChild_data _).reparent

/-- Taking the successor from below. -/
theorem takeSuccessor_spec {h : Heap} {gs : List (Frame Addr)} {m n nr p : Addr}
    {mr : BinaryTree Addr} (segment : Segment h gs (some m) (some n) (some nr))
    (followed : Followed h gs) (linked : Linked h (.node m .nil mr))
    (nodup : (inorder (plug gs (.node m .nil mr))).Nodup)
    (notN : n ∉ inorder (plug gs (.node m .nil mr))) (isParent : parentOf gs (some n) = some p) :
    ∃ h' b R, takeSuccessor h n nr m p (top mr) = (h', b) ∧ some b = parentOf gs (some m) ∧
      (h' m).child .right = R ∧ Segment h' gs (top mr) (some m) R ∧
      ParentIs h' mr (parentOf gs (some m)) ∧ Linked h' mr ∧
      (∀ x, x ∉ inorder (plug gs (.node m .nil mr)) → h' x = h x) ∧
      (∀ x, (h' x).balance = (h x).balance) ∧
      (∀ x, (h' x).descent_dir = (h x).descent_dir) ∧ h.SameData h' := by
  obtain ⟨_, right, _, rightParent, _, rightLinked⟩ := linked
  cases gs with
  | nil =>
    obtain rfl := Option.some.inj isParent
    refine ⟨h, m, top mr, ?_, rfl, right, rfl, rightParent, rightLinked, fun _ _ => rfl,
      fun _ => rfl, fun _ => rfl, .refl h⟩
    rw [takeSuccessor, if_neg (by simp)]
  | cons g outer =>
    obtain rfl := Option.some.inj isParent
    obtain ⟨inner, apart⟩ := nodup_plug nodup
    obtain ⟨_, mNotRight, _, rightNodup, _⟩ := nodup_branch.mp
      (show (inorder (branch .left m .nil mr)).Nodup from inner)
    have mMember : m ∈ inorder (.node m .nil mr) := by simp [inorder]
    have rightMember : ∀ a ∈ inorder mr, a ∈ inorder (.node m .nil mr) := by
      intro a member
      simp [inorder, member]
    have differ : g.elem ≠ n := by
      rintro rfl
      exact notN (mem_inorder_plug.mpr (.inr (around_cons.mpr (.inl rfl))))
    have nrAround : Around (g :: outer) nr := segment.whole_around rfl
    have gNotRight : g.elem ∉ inorder mr :=
      fun member => apart g.elem (rightMember _ member) (around_cons.mpr (.inl rfl))
    have nrNotRight : nr ∉ inorder mr := fun member => apart nr (rightMember _ member) nrAround
    have nrNotM : nr ≠ m := by
      rintro rfl
      exact apart nr mMember nrAround
    have pointed : h.modify g.elem (fun n => n.setChild n.descent_dir (top mr)) =
        h.modify g.elem (·.setChild g.side (top mr)) := by
      funext x
      rw [Heap.modify_apply, Heap.modify_apply]
      by_cases here : x = g.elem
      · rw [if_pos here, if_pos here, here, followed g (List.mem_cons_self ..)]
      · rw [if_neg here, if_neg here]
    let a₁ := h.modify g.elem (·.setChild g.side (top mr))
    let a₂ := a₁.reparent (top mr) (some g.elem)
    let a₃ := a₂.modify m (·.setChild .right (some nr))
    have step₁ : Segment a₁ (g :: outer) (top mr) (some n) (some nr) := segment.setHole nodup _
    have step₂ : Segment a₂ (g :: outer) (top mr) (some n) (some nr) := by
      apply step₁.of_sameLinks nodup
      intro x around
      exact sameLinks_of_eq (reparent_outside fun member => apart x (rightMember x member) around)
    have step₃ : Segment a₃ (g :: outer) (top mr) (some n) (some nr) := by
      apply step₂.of_sameLinks nodup
      intro x around
      have notM : x ≠ m := by
        rintro rfl
        exact apart x mMember around
      exact sameLinks_of_eq ((Heap.modify_apply ..).trans (if_neg notM))
    have linked₁ : Linked a₁ mr := by
      apply rightLinked.of_sameLinks rightNodup
      intro x member
      have notG : x ≠ g.elem := fun same => gNotRight (same ▸ member)
      exact sameLinks_of_eq ((Heap.modify_apply ..).trans (if_neg notG))
    obtain ⟨parent₂, linked₂⟩ := reparent_tree linked₁ rightNodup (some g.elem)
    have inRight : ∀ x ∈ inorder mr, (a₃.modify nr (·.setParent (some m))) x = a₂ x := by
      intro x member
      have notNr : x ≠ nr := fun same => nrNotRight (same ▸ member)
      have notM : x ≠ m := fun same => mNotRight (same ▸ member)
      rw [Heap.modify_apply, if_neg notNr]
      exact (Heap.modify_apply ..).trans (if_neg notM)
    refine ⟨a₃.modify nr (·.setParent (some m)), g.elem, some nr, ?_, rfl, ?_,
      step₃.reparentWhole nodup (some m), ?_, ?_, ?_, ?_, ?_, ?_⟩
    · rw [takeSuccessor, if_pos differ, pointed]
    · rw [Heap.setParent_child, Heap.setChild_child, if_pos ⟨rfl, rfl⟩]
    · exact parent₂.of_sameLinks fun x member => sameLinks_of_eq (inRight x member)
    · exact linked₂.of_sameLinks rightNodup fun x member => sameLinks_of_eq (inRight x member)
    · intro x outside
      rw [mem_inorder_plug, not_or] at outside
      have notNr : x ≠ nr := by
        rintro rfl
        exact outside.2 nrAround
      have notM : x ≠ m := by
        rintro rfl
        exact outside.1 mMember
      have notG : x ≠ g.elem := by
        rintro rfl
        exact outside.2 (around_cons.mpr (.inl rfl))
      have notTop : x ∉ inorder mr := fun member => outside.1 (rightMember x member)
      calc (a₃.modify nr (·.setParent (some m))) x = a₃ x := (Heap.modify_apply ..).trans (if_neg notNr)
        _ = a₂ x := (Heap.modify_apply ..).trans (if_neg notM)
        _ = a₁ x := reparent_outside notTop
        _ = h x := (Heap.modify_apply ..).trans (if_neg notG)
    · intro x
      rw [Heap.setParent_balance, Heap.setChild_balance, Heap.reparent_balance,
        Heap.setChild_balance]
    · intro x
      rw [Heap.setParent_descent, Heap.setChild_descent, Heap.reparent_descent,
        Heap.setChild_descent]
    · exact (Heap.SameData.refl h).setChild.reparent.setChild.setParent

/-! ## The successor in the place of a node -/

/-- The last assignments: `next` gets the left subtree, the parent and the balance of the node. -/
def Heap.succeed (h : Heap) (node next : Addr) (nodeLeft nodeParent : Option Addr) : Heap :=
  let h := h.modify next (·.setChild .left nodeLeft)
  let h := h.reparent nodeLeft (some next)
  let h := h.modify next (·.setParent nodeParent)
  let h := h.modify next (·.setBalance (h node).balance)
  h.modify next (·.setDescent .right)

section Succeed

variable {h : Heap} {n m : Addr} {l : BinaryTree Addr} {q : Option Addr}

theorem Heap.succeed_of_ne {a : Addr} (notM : a ≠ m) (notLeft : a ∉ inorder l) :
    h.succeed n m (top l) q a = h a := by
  unfold succeed
  rw [Heap.modify_apply, if_neg notM, Heap.modify_apply, if_neg notM, Heap.modify_apply, if_neg notM,
    reparent_outside notLeft, Heap.modify_apply, if_neg notM]

theorem Heap.succeed_balance (a : Addr) :
    (h.succeed n m (top l) q a).balance = if a = m then (h n).balance else (h a).balance := by
  unfold succeed
  rw [Heap.setDescent_balance, Heap.setBalance_balance]
  simp only [Heap.setParent_balance, Heap.reparent_balance, Heap.setChild_balance]

theorem Heap.succeed_descent (a : Addr) :
    (h.succeed n m (top l) q a).descent_dir = if a = m then .right else (h a).descent_dir := by
  unfold succeed
  rw [Heap.setDescent_descent, Heap.setBalance_descent, Heap.setParent_descent, Heap.reparent_descent,
    Heap.setChild_descent]

theorem Heap.succeed_parent : (h.succeed n m (top l) q m).avl_parent = q := by
  unfold succeed
  rw [Heap.setDescent_parent, Heap.setBalance_parent, Heap.setParent_parent, if_pos rfl]

theorem Heap.succeed_left : (h.succeed n m (top l) q m).child .left = top l := by
  unfold succeed
  rw [Heap.setDescent_child, Heap.setBalance_child, Heap.setParent_child, Heap.reparent_child,
    Heap.setChild_child, if_pos ⟨rfl, rfl⟩]

theorem Heap.succeed_right : (h.succeed n m (top l) q m).child .right = (h m).child .right := by
  have notLeft : ¬ (m = m ∧ Side.right = Side.left) := by simp
  unfold succeed
  rw [Heap.setDescent_child, Heap.setBalance_child, Heap.setParent_child, Heap.reparent_child,
    Heap.setChild_child, if_neg notLeft]

/-- The left subtree of the node has become that of the successor. -/
theorem Heap.succeed_linked (linked : Linked h l) (nodup : (inorder l).Nodup) (notLeft : m ∉ inorder l) :
    ParentIs (h.succeed n m (top l) q) l (some m) ∧ Linked (h.succeed n m (top l) q) l := by
  have linked₁ : Linked (h.modify m (·.setChild .left (top l))) l := by
    apply linked.of_sameLinks nodup
    intro a member
    have notM : a ≠ m := fun same => notLeft (same ▸ member)
    exact sameLinks_of_eq ((Heap.modify_apply ..).trans (if_neg notM))
  obtain ⟨parent₂, linked₂⟩ := reparent_tree linked₁ nodup (some m)
  have kept : ∀ a ∈ inorder l, h.succeed n m (top l) q a =
      (h.modify m (·.setChild .left (top l))).reparent (top l) (some m) a := by
    intro a member
    have notM : a ≠ m := fun same => notLeft (same ▸ member)
    unfold succeed
    rw [Heap.modify_apply, if_neg notM, Heap.modify_apply, if_neg notM, Heap.modify_apply, if_neg notM]
  exact ⟨parent₂.of_sameLinks fun a member => sameLinks_of_eq (kept a member),
    linked₂.of_sameLinks nodup fun a member => sameLinks_of_eq (kept a member)⟩

end Succeed

/-- The parts around a node and around its successor `m` have no node in common. -/
structure Separate (fs gs : List (Frame Addr)) (m : Addr) (l mr : BinaryTree Addr) : Prop where
  path : ∀ a, Around gs a → a ≠ m ∧ a ∉ inorder l ∧ ¬ Around fs a
  below : ∀ a ∈ inorder mr, a ≠ m ∧ a ∉ inorder l ∧ ¬ Around fs a
  beside : ∀ a ∈ inorder l, a ∉ inorder (plug gs (.node m .nil mr)) ∧ ¬ Around fs a
  above : ∀ a, Around fs a → a ≠ m ∧ a ∉ inorder l ∧ a ∉ inorder (plug gs (.node m .nil mr))
  own : m ∉ inorder l ∧ ¬ Around fs m

/-- In a tree without repetition the parts are apart. -/
theorem separate_of_nodup {fs gs : List (Frame Addr)} {n m : Addr} {l mr : BinaryTree Addr}
    (nodup : (inorder (plug fs (.node n l (plug gs (.node m .nil mr))))).Nodup) :
    Separate fs gs m l mr := by
  obtain ⟨inner, apart⟩ := nodup_plug nodup
  obtain ⟨_, _, rightNodup, _, rightLeft⟩ := nodup_branch.mp
    (show (inorder (branch .right n (plug gs (.node m .nil mr)) l)).Nodup from inner)
  obtain ⟨mNodup, mApart⟩ := nodup_plug rightNodup
  obtain ⟨_, mNotMr, _⟩ := nodup_branch.mp (show (inorder (branch .left m .nil mr)).Nodup from mNodup)
  have inRight : ∀ {a}, a ∈ inorder (plug gs (.node m .nil mr)) → a ∉ inorder l ∧ ¬ Around fs a :=
    fun {a} member => ⟨rightLeft a member, apart a (by simp [inorder, member])⟩
  have mMember : m ∈ inorder (.node m .nil mr) := by simp [inorder]
  refine ⟨?_, ?_, ?_, ?_, inRight (mem_inorder_plug.mpr (.inl mMember))⟩
  · intro a around
    exact ⟨fun same => mApart m mMember (same ▸ around), inRight (mem_inorder_plug.mpr (.inr around))⟩
  · intro a member
    exact ⟨fun same => mNotMr (same ▸ member),
      inRight (mem_inorder_plug.mpr (.inl (by simp [inorder, member])))⟩
  · intro a member
    exact ⟨fun right => (inRight right).1 member, apart a (by simp [inorder, member])⟩
  · intro a around
    have notRight : a ∉ inorder (plug gs (.node m .nil mr)) := fun right => (inRight right).2 around
    refine ⟨?_, fun left => apart a (by simp [inorder, left]) around, notRight⟩
    rintro rfl
    exact notRight (mem_inorder_plug.mpr (.inl mMember))

/-- The tree without a node, in whose place its successor stands. -/
theorem successor_order {fs gs : List (Frame Addr)} (sides : ∀ f ∈ gs, f.side = .left) (n m : Addr)
    (l mr : BinaryTree Addr) :
    ∃ front back, inorder (plug fs (.node n l (plug gs (.node m .nil mr)))) = front ++ n :: back ∧
      inorder (plug (gs ++ ⟨m, .right, l⟩ :: fs) mr) = front ++ back := by
  have flatRight : inorder (plug gs (.node m .nil mr)) = m :: inorder (plug gs mr) := by
    rw [inorder_plug, inorder_plug, before_of_left sides]
    simp [inorder]
  refine ⟨before fs ++ inorder l, m :: inorder (plug gs mr) ++ after fs, ?_, ?_⟩
  · rw [inorder_plug, inorder, flatRight]
    simp
  · rw [plug_append, plug_cons, inorder_plug, Frame.fill]
    simp [branch, inorder]

/-- The successor `m` has been taken from below; the node is still in its place. -/
structure SuccessorTaken (t : LocalTree) (fs gs : List (Frame Addr)) (n m : Addr)
    (l mr : BinaryTree Addr) (h : Heap) : Prop where
  sides : ∀ f ∈ gs, f.side = .left
  segment : Segment h gs (top mr) (some m) ((h m).child .right)
  parent : ParentIs h mr (parentOf gs (some m))
  linked : Linked h mr
  beside : Linked h l
  above : Segment h fs (some n) none t.lvt.avl_root
  followed : Followed h gs
  followedAbove : Followed h fs
  balance : ∀ a, (h a).balance = (t.heap a).balance
  data : t.heap.SameData h

/-- The tree with the successor in the place of the node. -/
def LocalTree.succeeded (t : LocalTree) (fs : List (Frame Addr)) (n m : Addr) (l : BinaryTree Addr)
    (h : Heap) : LocalTree :=
  { t with heap := h.succeed n m (top l) (parentOf fs none) }.replaceChild (parentOf fs none) (some m)

/-- What `unlinkNode` does to a node with a right subtree. -/
theorem unlinkNode_taken {t : LocalTree} {fs : List (Frame Addr)} {n nr : Addr}
    {l r : BinaryTree Addr} (wf : t.WellFormed (plug fs (.node n l r)))
    (followed : Followed t.heap fs) (isRight : top r = some nr) :
    ∃ h gs m mr, r = plug gs (.node m .nil mr) ∧ SuccessorTaken t fs gs n m l mr h ∧
      unlinkNode t n = some (t.succeeded fs n m l h, parentOf gs (some m)) := by
  obtain ⟨_, parent, linked⟩ := linked_plug.mp ⟨wf.root, wf.parentless, wf.linked⟩
  obtain ⟨left, right, _, _, _, rightLinked⟩ := linked
  have above : (t.heap n).avl_parent = parentOf fs none := parent n rfl
  obtain ⟨inner, _⟩ := nodup_plug wf.nodup
  obtain ⟨nNotRight, _, rightNodup, leftNodup, _⟩ := nodup_branch.mp
    (show (inorder (branch .right n r l)).Nodup from inner)
  have enough : r.height ≤ t.lvt.avl_height := by
    have bound := length_le_height fs (.node n l r)
    rw [wf.height]
    simp only [BinaryTree.height] at bound
    omega
  obtain ⟨h₁, m, mr, gs, walked, rfl, sides, followed₁, shape, elsewhere⟩ :=
    walkLeft_spec r t.heap t.lvt.avl_height nr isRight enough rightLinked rightNodup
  have wf₁ : ({ t with heap := h₁ } : LocalTree).WellFormed
      (plug (gs ++ ⟨n, .right, l⟩ :: fs) (.node m .nil mr)) := by
    rw [plug_append]
    exact wf.of_sameShape shape rfl rfl
  obtain ⟨segment₁, parent₁, linked₁⟩ := linked_plug.mp ⟨wf₁.root, wf₁.parentless, wf₁.linked⟩
  obtain ⟨middle, innerSegment, outerSegment⟩ := segment_append.mp segment₁
  have isMiddle : middle = some nr := by
    obtain ⟨atNode, _⟩ := outerSegment
    rw [← atNode, shape.children, ← isRight]
    exact right
  rw [isMiddle] at innerSegment outerSegment
  obtain ⟨_, _, _, besideLinked, _, rest⟩ := outerSegment
  obtain ⟨p, isParent⟩ : ∃ p, parentOf gs (some n) = some p := by
    cases gs with
    | nil => exact ⟨n, rfl⟩
    | cons g outer => exact ⟨g.elem, rfl⟩
  have nextParent : (h₁ m).avl_parent = some p := by
    rw [parent₁ m rfl, ← isParent]
    cases gs <;> rfl
  obtain ⟨h₂, b, R, taken, isB, rightChild, segment₂, parent₂, linked₂, outside₂, balance₂, descent₂,
    data₂⟩ := takeSuccessor_spec innerSegment followed₁ linked₁ rightNodup nNotRight isParent
  have apart := separate_of_nodup wf.nodup
  refine ⟨h₂, gs, m, mr, rfl,
    ⟨sides, ?_, parent₂, linked₂, ?_, ?_, ?_, ?_, ?_, shape.data.trans data₂⟩, ?_⟩
  · rw [rightChild]
    exact segment₂
  · exact besideLinked.of_sameLinks leftNodup fun a member =>
      sameLinks_of_eq (outside₂ a (apart.beside a member).1)
  · exact rest.of_sameLinks wf.nodup fun a around =>
      sameLinks_of_eq (outside₂ a (apart.above a around).2.2)
  · intro f member
    rw [descent₂]
    exact followed₁ f member
  · intro f member
    rw [descent₂, elsewhere f.elem (apart.above f.elem (frame_around member)).2.2]
    exact followed f member
  · intro a
    rw [balance₂, shape.balance]
  · have nextRight : (h₁ m).avl_right = top mr := linked₁.2.1
    simp only [unlinkNode, left, right, isRight, above, walked, Option.bind_eq_bind,
      Option.bind_some, nextParent, nextRight, taken, ← isB]
    rfl

section Succeeded

variable {t : LocalTree} {fs gs : List (Frame Addr)} {n m : Addr} {l mr : BinaryTree Addr} {h : Heap}

theorem LocalTree.succeeded_of_not_around {a : Addr} (outside : ¬ Around fs a) :
    (t.succeeded fs n m l h).heap a = h.succeed n m (top l) (parentOf fs none) a :=
  replaceChild_of_not_around outside

variable (nodup : (inorder (plug fs (.node n l (plug gs (.node m .nil mr))))).Nodup)

include nodup

/-- The nodes between the node and its successor, and those below, are as they were. -/
theorem LocalTree.succeeded_kept {a : Addr} (inside : Around gs a ∨ a ∈ inorder mr) :
    (t.succeeded fs n m l h).heap a = h a := by
  have apart := separate_of_nodup nodup
  obtain ⟨notM, notLeft, outside⟩ := inside.elim (apart.path a) (apart.below a)
  rw [LocalTree.succeeded_of_not_around outside, Heap.succeed_of_ne notM notLeft]

theorem Heap.succeed_frame {a : Addr} (around : Around fs a) :
    h.succeed n m (top l) (parentOf fs none) a = h a :=
  have apart := (separate_of_nodup nodup).above a around
  Heap.succeed_of_ne apart.1 apart.2.1

variable (taken : SuccessorTaken t fs gs n m l mr h)

include taken

theorem SuccessorTaken.followed' : Followed (t.succeeded fs n m l h).heap (gs ++ ⟨m, .right, l⟩ :: fs) := by
  intro f member
  unfold LocalTree.succeeded
  rw [replaceChild_descent]
  dsimp only
  rw [Heap.succeed_descent]
  rcases List.mem_append.mp member with inGs | others
  · rw [if_neg ((separate_of_nodup nodup).path f.elem (frame_around inGs)).1]
    exact taken.followed f inGs
  · rcases List.mem_cons.mp others with rfl | inFs
    · exact if_pos rfl
    · rw [if_neg ((separate_of_nodup nodup).above f.elem (frame_around inFs)).1]
      exact taken.followedAbove f inFs

/-- The pointers around the successor. -/
theorem SuccessorTaken.segment' :
    Segment (t.succeeded fs n m l h).heap (gs ++ ⟨m, .right, l⟩ :: fs) (top mr) none
      (t.succeeded fs n m l h).lvt.avl_root := by
  have apart := separate_of_nodup nodup
  obtain ⟨inner, _⟩ := nodup_plug nodup
  obtain ⟨_, _, rightNodup, leftNodup, _⟩ := nodup_branch.mp
    (show (inorder (branch .right n (plug gs (.node m .nil mr)) l)).Nodup from inner)
  have atM := LocalTree.succeeded_of_not_around (t := t) (n := n) (m := m) (l := l) (h := h) apart.own.2
  have left : ∀ a ∈ inorder l, (t.succeeded fs n m l h).heap a = h.succeed n m (top l) (parentOf fs none) a :=
    fun a member => LocalTree.succeeded_of_not_around (apart.beside a member).2
  obtain ⟨leftParent, leftLinked⟩ := Heap.succeed_linked (n := n) (q := parentOf fs none) taken.beside leftNodup
    apart.own.1
  rw [segment_append]
  refine ⟨(h m).child .right, ?_, ?_, ?_, ?_, ?_, ?_, ?_⟩
  · exact taken.segment.of_sameLinks rightNodup fun a around =>
      sameLinks_of_eq (LocalTree.succeeded_kept nodup (.inl around))
  · rw [atM, Heap.succeed_right]
  · rw [atM]
    exact Heap.succeed_left
  · exact leftParent.of_sameLinks fun a member => sameLinks_of_eq (left a member)
  · exact leftLinked.of_sameLinks leftNodup fun a member => sameLinks_of_eq (left a member)
  · rw [atM, Heap.succeed_parent]
  · have above : Segment (h.succeed n m (top l) (parentOf fs none)) fs (some n) none t.lvt.avl_root :=
      taken.above.of_sameLinks nodup fun a around => sameLinks_of_eq (Heap.succeed_frame nodup around)
    have followed : Followed (h.succeed n m (top l) (parentOf fs none)) fs := by
      intro f member
      rw [Heap.succeed_frame nodup (frame_around member)]
      exact taken.followedAbove f member
    exact replaceChild_segment above followed nodup

omit nodup in
theorem SuccessorTaken.balance' (a : Addr) : ((t.succeeded fs n m l h).heap a).balance =
    if a = m then (t.heap n).balance else (t.heap a).balance := by
  unfold LocalTree.succeeded
  rw [replaceChild_balance]
  dsimp only
  rw [Heap.succeed_balance, taken.balance, taken.balance]

/-- The frames and the subtree behind the successor are as balanced as before. -/
theorem SuccessorTaken.balanced
    (balanced : Balanced (fun a => (t.heap a).balance) (plug fs (.node n l (plug gs (.node m .nil mr))))) :
    BalancedFrames (fun a => ((t.succeeded fs n m l h).heap a).balance) (gs ++ ⟨m, .right, l⟩ :: fs)
        (mr.height + 1) ∧
      Balanced (fun a => ((t.succeeded fs n m l h).heap a).balance) mr := by
  have apart := separate_of_nodup nodup
  have whole : Balanced (fun a => (t.heap a).balance) (plug (gs ++ ⟨n, .right, l⟩ :: fs) (.node m .nil mr)) := by
    rw [plug_append]
    exact balanced
  obtain ⟨frames, _, _, below⟩ := balanced_plug.mp whole
  rw [show (BinaryTree.node m .nil mr).height = mr.height + 1 by simp [BinaryTree.height]] at frames
  have same : ∀ a, a ≠ m → ((t.succeeded fs n m l h).heap a).balance = (t.heap a).balance := by
    intro a notM
    rw [taken.balance', if_neg notM]
  constructor
  · apply balancedFrames_rename frames
    · rw [taken.balance', if_pos rfl]
    · exact fun a around => same a (apart.path a around).1
    · exact fun a member => same a fun equal => apart.own.1 (equal ▸ member)
    · exact fun a around => same a (apart.above a around).1
  · exact below.congr fun a member => same a (apart.below a member).1

end Succeeded

/-- A node with a right subtree is replaced by its successor. -/
theorem unlinkNode_of_right {t : LocalTree} {fs : List (Frame Addr)} {n nr : Addr}
    {l r : BinaryTree Addr} (wf : t.WellFormed (plug fs (.node n l r)))
    (followed : Followed t.heap fs) (isRight : top r = some nr) :
    ∃ t' gs u k, unlinkNode t n = some (t', parentOf gs none) ∧
      Unlinked t n (plug fs (.node n l r)) t' gs u k := by
  obtain ⟨h, gs, m, mr, rfl, taken, done⟩ := unlinkNode_taken wf followed isRight
  obtain ⟨front, back, split, order⟩ := @successor_order fs gs taken.sides n m l mr
  have nodup : (inorder (plug (gs ++ ⟨m, .right, l⟩ :: fs) mr)).Nodup := by
    have old := wf.nodup
    rw [split] at old
    rw [order]
    exact (List.nodup_cons.mp (List.perm_middle.nodup_iff.mp old)).2
  obtain ⟨rightNodup, _⟩ := nodup_plug nodup
  obtain ⟨frames, balanced⟩ := taken.balanced wf.nodup wf.balanced
  have kept : ∀ a ∈ inorder mr, SameLinks h (t.succeeded fs n m l h).heap a := fun a member =>
    sameLinks_of_eq (LocalTree.succeeded_kept wf.nodup (.inr member))
  have isHead : parentOf (gs ++ ⟨m, .right, l⟩ :: fs) none = parentOf gs (some m) := by
    cases gs <;> rfl
  refine ⟨t.succeeded fs n m l h, gs ++ ⟨m, .right, l⟩ :: fs, mr, mr.height + 1, ?_,
    ⟨⟨taken.segment' wf.nodup, ?_, taken.linked.of_sameLinks rightNodup kept, nodup, taken.followed' wf.nodup,
      frames⟩, balanced, rfl, .node m .nil mr, ?_, ?_⟩, ⟨front, back, split, order⟩, ?_⟩
  · rw [isHead]
    exact done
  · rw [isHead]
    exact taken.parent.of_sameLinks kept
  · simp [BinaryTree.height]
  · have whole : plug fs (.node n l (plug gs (.node m .nil mr))) =
        plug (gs ++ ⟨n, .right, l⟩ :: fs) (.node m .nil mr) := by rw [plug_append]; rfl
    unfold LocalTree.succeeded
    rw [replaceChild_height, ← height_plug_rename (n := n), ← whole]
    exact wf.height
  · exact taken.data.setChild.reparent.setParent.setBalance.setDescent.trans (replaceChild_data _)

/-- What a deletion leaves: the tree without exactly that node, all contents as they
were, and no clue. -/
structure Deleted (t : LocalTree) (T : BinaryTree Addr) (node : Addr) (t' : LocalTree)
    (T' : BinaryTree Addr) : Prop where
  wellFormed : t'.WellFormed T'
  noClue : t'.lvt.lastLookup.lastNodeLookedUp = none
  order : ∃ front back, inorder T = front ++ node :: back ∧ inorder T' = front ++ back
  data : t.heap.SameData t'.heap

/-- Deletion of a node to which the directions lead. -/
theorem lvAvlTreeNodeDelete_spec {t : LocalTree} {T : BinaryTree Addr} {node : Addr}
    (wf : t.WellFormed T) (leads : Leads (fun a => (t.heap a).descent_dir) T node) :
    ∃ t' T', lvAvlTreeNodeDelete t node = some t' ∧ Deleted t T node t' T' := by
  obtain ⟨fs, l, r, rfl, followed⟩ := leads
  obtain ⟨t₁, gs, u, k, unlinked, shrunk, ⟨front, back, oldOrder, newOrder⟩, data₁⟩ :
      ∃ t' gs u k, unlinkNode t node = some (t', parentOf gs none) ∧
        Unlinked t node (plug fs (.node node l r)) t' gs u k := by
    cases isRight : top r with
    | none =>
      obtain rfl := top_eq_none.mp isRight
      obtain ⟨t', done, result⟩ := unlinkNode_of_right_nil wf followed
      exact ⟨t', fs, l, _, done, result⟩
    | some nr => exact unlinkNode_of_right wf followed isRight
  have enough : gs.length < t₁.lvt.avl_height + 1 := by
    obtain ⟨w, _, height⟩ := shrunk.height
    have bound := length_le_height gs w
    omega
  obtain ⟨t₂, T', balanced, restored⟩ := balanceUp_spec _ t₁ gs u k enough shrunk
  have data := data₁.trans restored.data
  refine ⟨{ t₂ with lvt := { t₂.lvt with
    lastLookup := { t₂.lvt.lastLookup with lastNodeLookedUp := none } } }, T', ?_,
    ⟨restored.root, restored.parentless, restored.linked, ?_, restored.balanced,
    restored.height, ?_⟩, rfl, ⟨front, back, oldOrder, restored.order.trans newOrder⟩, data⟩
  · simp only [lvAvlTreeNodeDelete, unlinked, balanced, Option.bind_eq_bind, Option.bind_some]
  · have old := wf.sorted
    rw [SortedBy, List.pairwise_map, oldOrder] at old
    rw [SortedBy, List.pairwise_map, restored.order, newOrder]
    have without := old.sublist (List.Sublist.append_left (List.sublist_cons_self node back) front)
    apply without.imp
    intro a b smaller
    show (t₂.heap a).subscript < (t₂.heap b).subscript
    rw [(data a).1, (data b).1]
    exact smaller
  · intro a member
    apply (data a).2.2.2
    apply wf.validKeys
    rw [restored.order, newOrder] at member
    rw [oldOrder]
    rcases List.mem_append.mp member with inFront | inBack
    · exact List.mem_append_left _ inFront
    · exact List.mem_append_right _ (List.mem_cons_of_mem _ inBack)

/-! ## Pointing at a node -/

/-- The directions lead to the node. -/
theorem pointAncestors_spec (fs : List (Frame Addr)) (u : BinaryTree Addr) (h : Heap)
    (rounds : Nat) (a : Addr) {whole : Option Addr} (isTop : top u = some a)
    (enough : fs.length < rounds) (segment : Segment h fs (top u) none whole)
    (parent : ParentIs h u (parentOf fs none)) (nodup : (inorder (plug fs u)).Nodup) :
    ∃ h', pointAncestors rounds h a = some h' ∧ SameShape h h' ∧ Followed h' fs ∧
      ∀ x, ¬ Around fs x → (h' x).descent_dir = (h x).descent_dir := by
  induction fs generalizing u h rounds a with
  | nil =>
    obtain ⟨rounds, rfl⟩ : ∃ n, rounds = n + 1 := Nat.exists_eq_succ_of_ne_zero (by omega)
    have above : (h a).avl_parent = none := parent a isTop
    rw [pointAncestors, above]
    exact ⟨h, rfl, .refl h, followed_nil h, fun _ _ => rfl⟩
  | cons f up ih =>
    obtain ⟨rounds, rfl⟩ : ∃ n, rounds = n + 1 :=
      Nat.exists_eq_succ_of_ne_zero (by simp only [List.length_cons] at enough; omega)
    have filled : (inorder (plug up (f.fill u))).Nodup := nodup
    obtain ⟨inner, apart⟩ := nodup_plug filled
    obtain ⟨_, _, _, _, notBeside⟩ := nodup_branch.mp inner
    have notAbove := apart f.elem (mem_inorder_branch.mpr (.inl rfl))
    obtain ⟨near, far, _, _, above, rest⟩ := segment
    have up' : (h a).avl_parent = some f.elem := parent a isTop
    have direction : (if (h f.elem).avl_left = some a then Side.left else Side.right) = f.side := by
      cases side : f.side with
      | left =>
        rw [side] at near
        exact if_pos (near.trans isTop)
      | right =>
        rw [side] at far
        apply if_neg
        intro same
        exact notBeside a (top_mem isTop) (top_mem (far.symm.trans same))
    rw [pointAncestors, up']
    dsimp only
    rw [direction]
    have shape := (SameShape.refl h).setDescent f.elem f.side
    have top' : top (f.fill u) = some f.elem := by rw [Frame.fill, top_branch]
    have segment' : Segment (h.modify f.elem (·.setDescent f.side)) up (top (f.fill u)) none
        whole := by
      rw [top']
      exact rest.of_sameLinks filled fun x _ => shape.sameLinks x
    have parent' : ParentIs (h.modify f.elem (·.setDescent f.side)) (f.fill u)
        (parentOf up none) := by
      rw [Frame.fill, parentIs_branch, Heap.setDescent_parent]
      exact above
    obtain ⟨h', done, shape', followed, elsewhere⟩ := ih (f.fill u) _ rounds f.elem
      top' (by simp only [List.length_cons] at enough; omega) segment' parent' filled
    refine ⟨h', done, shape.trans shape', ?_, ?_⟩
    · intro g member
      rcases List.mem_cons.mp member with rfl | outer
      · rw [elsewhere g.elem notAbove, Heap.setDescent_descent, if_pos rfl]
      · exact followed g outer
    · intro x outside
      rw [around_cons, not_or, not_or] at outside
      rw [elsewhere x outside.2.2, Heap.setDescent_descent, if_neg outside.1]

/-- After the preparation the directions lead to the node, wherever it is. -/
theorem lvAvlTreeNodePrepareForDelete_spec {t : LocalTree} {T : BinaryTree Addr} {node : Addr}
    (wf : t.WellFormed T) (member : node ∈ inorder T) :
    ∃ t', lvAvlTreeNodePrepareForDelete t node = some t' ∧ t'.WellFormed T ∧
      t'.lvt = t.lvt ∧ SameShape t.heap t'.heap ∧
      Leads (fun a => (t'.heap a).descent_dir) T node := by
  obtain ⟨fs, l, r, rfl⟩ := exists_position member
  obtain ⟨segment, parent, _⟩ := linked_plug.mp ⟨wf.root, wf.parentless, wf.linked⟩
  have enough : fs.length < t.lvt.avl_height + 1 := by
    have bound := length_le_height fs (.node node l r)
    rw [wf.height]
    omega
  obtain ⟨h', done, shape, followed, _⟩ := pointAncestors_spec fs (.node node l r) t.heap _ node rfl
    enough segment parent wf.nodup
  refine ⟨{ t with heap := h' }, ?_, wf.of_sameShape shape rfl rfl, rfl, shape,
    fs, l, r, rfl, followed⟩
  simp only [lvAvlTreeNodePrepareForDelete, done, Option.bind_eq_bind, Option.bind_some]

end Ydb
