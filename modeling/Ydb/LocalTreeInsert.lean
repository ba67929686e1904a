import Ydb.LocalTreeLookup

/-!
# Insertion

A new node goes where the failed lookup ended. The nodes above it that were
balanced tilt towards it, up to the first that was tilted already or the root.
There the tree has grown, has become balanced, or is put right by one rotation.
Everything above keeps its height.
-/

namespace Ydb

open Lib BinaryTree

/-! ## Pointing a parent at another child -/

section ReplaceChild

variable {t : LocalTree} {fs : List (Frame Addr)} {hole c : Option Addr}

theorem replaceChild_balance (p : Option Addr) (x : Addr) :
    ((t.replaceChild p c).heap x).balance = (t.heap x).balance := by
  cases p with
  | none => rfl
  | some p => exact Heap.modify_view _ _ _ (·.balance) (by simp)

theorem replaceChild_descent (p : Option Addr) (x : Addr) :
    ((t.replaceChild p c).heap x).descent_dir = (t.heap x).descent_dir := by
  cases p with
  | none => rfl
  | some p => exact Heap.modify_view _ _ _ (·.descent_dir) (by simp)

theorem replaceChild_parent (p : Option Addr) (x : Addr) :
    ((t.replaceChild p c).heap x).avl_parent = (t.heap x).avl_parent := by
  cases p with
  | none => rfl
  | some p => exact Heap.modify_view _ _ _ (·.avl_parent) (by simp)

theorem replaceChild_data (p : Option Addr) : t.heap.SameData (t.replaceChild p c).heap := by
  cases p with
  | none => exact .refl _
  | some p => exact (Heap.SameData.refl t.heap).modify fun n => n.sameData_setChild _ _

theorem replaceChild_height (p : Option Addr) :
    (t.replaceChild p c).lvt.avl_height = t.lvt.avl_height := by
  cases p <;> rfl

theorem replaceChild_clue (p : Option Addr) :
    (t.replaceChild p c).lvt.lastLookup = t.lvt.lastLookup := by
  cases p <;> rfl

/-- Nodes other than the parent keep all their fields. -/
theorem replaceChild_of_not_around {x : Addr} (outside : ¬ Around fs x) :
    (t.replaceChild (parentOf fs none) c).heap x = t.heap x := by
  cases fs with
  | nil => rfl
  | cons f up =>
    have differ : x ≠ f.elem := fun same => outside (around_cons.mpr (.inl same))
    simp only [LocalTree.replaceChild, parentOf, Heap.modify_apply]
    rw [if_neg differ]

/-- The frames then hold the new child, because the direction of the parent is the
side of the position. -/
theorem replaceChild_segment {u : BinaryTree Addr}
    (segment : Segment t.heap fs hole none t.lvt.avl_root) (followed : Followed t.heap fs)
    (nodup : (inorder (plug fs u)).Nodup) :
    Segment (t.replaceChild (parentOf fs none) c).heap fs c none
      (t.replaceChild (parentOf fs none) c).lvt.avl_root := by
  cases fs with
  | nil => rfl
  | cons f up =>
    have direction : (t.heap f.elem).descent_dir = f.side := followed f (List.mem_cons_self ..)
    have fields : (t.replaceChild (parentOf (f :: up) none) c).heap =
        t.heap.modify f.elem (·.setChild f.side c) := by
      funext x
      simp only [LocalTree.replaceChild, parentOf, Heap.modify_apply]
      by_cases here : x = f.elem
      · rw [if_pos here, if_pos here, here, direction]
      · rw [if_neg here, if_neg here]
    rw [fields]
    exact segment.setHole nodup c

end ReplaceChild

/-! ## A position in memory -/

/-- The tree in memory has the subtree `u` at a position to which the directions
lead. The frames are balanced for a subtree of height `k` there. -/
structure Focus (t : LocalTree) (fs : List (Frame Addr)) (u : BinaryTree Addr) (k : Nat) :
    Prop where
  segment : Segment t.heap fs (top u) none t.lvt.avl_root
  parent : ParentIs t.heap u (parentOf fs none)
  linked : Linked t.heap u
  nodup : (inorder (plug fs u)).Nodup
  followed : Followed t.heap fs
  frames : BalancedFrames (fun a => (t.heap a).balance) fs k

/-- What rebalancing leaves alone: directions, contents, height and clue. -/
structure OnlyRelinked (t t' : LocalTree) : Prop where
  descent : ∀ a, (t'.heap a).descent_dir = (t.heap a).descent_dir
  data : t.heap.SameData t'.heap
  height : t'.lvt.avl_height = t.lvt.avl_height
  clue : t'.lvt.lastLookup = t.lvt.lastLookup

/-- Rotating the heavy child of the node at a position and pointing the parent at
the new root of the subtree. -/
theorem Focus.rotate {t : LocalTree} {up : List (Frame Addr)} {s : Side} {a b : Addr}
    {near far : BinaryTree Addr} {k : Nat} (focus : Focus t up (branch s a near far) k)
    (isTop : top near = some b) (heavy : (t.heap a).balance = .toward s)
    (nearBalanced : Balanced (fun c => (t.heap c).balance) near)
    (farBalanced : Balanced (fun c => (t.heap c).balance) far)
    (tall : near.height = far.height + 2) :
    ∃ h' c u', (if (t.heap b).balance = .even ∨ (t.heap b).balance = .toward s then
        some (lvAvlTreeSingleRotation t.heap a b s) else lvAvlTreeDoubleRotation t.heap a b s) =
          some (h', c) ∧
      ∃ t', t' = { t with heap := h'.modify c (·.setParent (parentOf up none)) }.replaceChild
          (parentOf up none) (some c) ∧
        Focus t' up u' k ∧ OnlyRelinked t t' ∧ inorder u' = inorder (branch s a near far) ∧
        Balanced (fun c => (t'.heap c).balance) u' ∧
        u'.height = (if (t.heap b).balance = .even then far.height + 3 else far.height + 2) ∧
        ∀ n, (t.heap a).descent_dir = s → (t.heap b).balance = .toward (t.heap b).descent_dir →
          b ≠ n → Leads (fun c => (t.heap c).descent_dir) near n →
            Leads (fun c => (t'.heap c).descent_dir) u' n := by
  obtain ⟨inner, apart⟩ := nodup_plug focus.nodup
  obtain ⟨h', c, u', done, top', rotated, order, balanced, height, leads⟩ :=
    rotation_balances isTop inner focus.linked heavy nearBalanced farBalanced tall
  have nodup' : (inorder (plug up u')).Nodup := by
    rw [inorder_plug, order, ← inorder_plug]
    exact focus.nodup
  have nodupInner := nodup_plug nodup'
  have member : c ∈ inorder u' := top_mem top'
  -- The frames are not touched by the rotation nor by its new root's parent.
  have outside : ∀ x, Around up x → (h'.modify c (·.setParent (parentOf up none))) x = t.heap x := by
    intro x around
    have differ : x ≠ c := by
      rintro rfl
      exact nodupInner.2 x member around
    rw [Heap.modify_apply, if_neg differ]
    exact rotated.outside x fun inside => apart x inside around
  have kept : ∀ x, Around up x →
      SameLinks t.heap (h'.modify c (·.setParent (parentOf up none))) x := by
    intro x around
    rw [SameLinks, outside x around]
    exact ⟨fun _ => rfl, rfl⟩
  let t₁ : LocalTree := { t with heap := h'.modify c (·.setParent (parentOf up none)) }
  have segment₁ : Segment t₁.heap up (some a) none t₁.lvt.avl_root := by
    have segment := focus.segment
    rw [top_branch] at segment
    exact segment.of_sameLinks focus.nodup kept
  have followed₁ : Followed t₁.heap up := by
    intro f inFrames
    rw [show t₁.heap f.elem = t.heap f.elem from outside f.elem (frame_around inFrames)]
    exact focus.followed f inFrames
  have inside : ∀ x ∈ inorder u',
      (t₁.replaceChild (parentOf up none) (some c)).heap x = t₁.heap x :=
    fun x inTree => replaceChild_of_not_around (nodupInner.2 x inTree)
  refine ⟨h', c, u', done, _, rfl, ?_, ?_, order, ?_, height, ?_⟩
  · refine ⟨?_, ?_, ?_, nodup', ?_, ?_⟩
    · rw [top']
      exact replaceChild_segment segment₁ followed₁ nodup'
    · intro x isTop'
      obtain rfl := Option.some.inj (top'.symm.trans isTop')
      rw [replaceChild_parent, Heap.setParent_parent, if_pos rfl]
    · have linked₁ : Linked t₁.heap u' := by
        apply rotated.linked.congr nodupInner.1
        · intro x _ side
          exact Heap.setParent_child ..
        · intro x _ notTop
          show (h'.modify c (·.setParent (parentOf up none)) x).avl_parent = _
          rw [Heap.setParent_parent, if_neg]
          rintro rfl
          exact notTop top'
      apply linked₁.of_sameLinks nodupInner.1
      intro x inTree
      rw [SameLinks, inside x inTree]
      exact ⟨fun _ => rfl, rfl⟩
    · intro f inFrames
      rw [replaceChild_descent]
      exact followed₁ f inFrames
    · apply focus.frames.congr
      intro x around
      rw [replaceChild_balance]
      exact congrArg LvTreeNode.balance (outside x around)
  · refine ⟨?_, ?_, replaceChild_height _, replaceChild_clue _⟩
    · intro x
      rw [replaceChild_descent, Heap.setParent_descent, rotated.descent]
    · exact rotated.data.setParent.trans (replaceChild_data _)
  · apply balanced.congr
    intro x _
    rw [replaceChild_balance, Heap.setParent_balance]
  · intro n atTop towards differ inNear
    apply (leads n atTop towards differ inNear).congr
    intro x _
    rw [replaceChild_descent, Heap.setParent_descent]

/-! ## The new node -/

section NewNode

variable {slot : LvTreeNode} {key : TreeKeySubscr} {parent : Option Addr}

variable (slot key parent) in
theorem newNode_links : (∀ s, (newNode slot key parent).child s = none) ∧
    (newNode slot key parent).avl_parent = parent ∧
    (newNode slot key parent).balance = .even ∧
    (newNode slot key parent).descent_dir = slot.descent_dir ∧
    (newNode slot key parent).v = slot.v ∧ (newNode slot key parent).sbs_child = none := by
  unfold newNode
  dsimp only
  refine ⟨?_, ?_, ?_, ?_, ?_, ?_⟩
  · intro s
    cases s <;> split <;> try split
    all_goals rfl
  all_goals
    split
    · split <;> rfl
    · rfl

theorem newNode_subscript : (newNode slot key parent).subscript = key.subscript := by
  unfold newNode
  dsimp only
  split
  next canonical =>
    split
    next int =>
      simp [LvTreeNode.subscript, LvTreeNode.key, TreeKeySubscr.subscript, Mval.value, canonical, int]
    next notInt =>
      simp [LvTreeNode.subscript, LvTreeNode.key, TreeKeySubscr.subscript, Mval.value, canonical,
        notInt]
  next text =>
    simp [LvTreeNode.subscript, LvTreeNode.key, TreeKeySubscr.subscript, text]

theorem newNode_validKey (valid : key.Valid) : (newNode slot key parent).ValidKey := by
  unfold newNode
  dsimp only
  split
  next canonical =>
    rcases valid canonical with isInt | isFloat
    · rw [if_pos isInt.int]
      refine ⟨fun _ => .inl ⟨isInt.nm, isInt.int, ?_⟩, rfl, fun unmarked => ?_, fun _ conv => ?_⟩
      · have small := isInt.small
        simpa [LvTreeNode.key, isInt.int] using small
      · cases unmarked
      · cases conv
    · rw [if_neg (by simp [isFloat.int])]
      have notInt := isFloat.int
      refine ⟨fun _ => .inr ⟨isFloat.nm, notInt, ?_, ?_, isFloat.m0_lo, isFloat.m0_hi,
        isFloat.e_lo, isFloat.e_hi⟩, rfl, fun unmarked => ?_, fun int => ?_⟩
      · simpa [LvTreeNode.key, notInt] using isFloat.m1_lo
      · simpa [LvTreeNode.key, notInt] using isFloat.m1_hi
      · cases unmarked
      · exact absurd (int.symm.trans notInt) (by decide)
  next text =>
    refine ⟨fun marked => ?_, rfl, fun _ => rfl, fun int => ?_⟩
    · cases marked
    · cases int

end NewNode

/-! ## The climb -/

/-- The root of a tree around a position is one of the frames. -/
theorem around_top {f : Frame Addr} {up : List (Frame Addr)} {u : BinaryTree Addr} {a : Addr}
    (isTop : top (plug (f :: up) u) = some a) : Around (f :: up) a := by
  induction up generalizing f u with
  | nil =>
    rw [plug_cons, plug_nil, Frame.fill, top_branch] at isTop
    exact around_cons.mpr (.inl (Option.some.inj isTop).symm)
  | cons g outer ih =>
    exact around_cons.mpr (.inr (.inr (ih isTop)))

/-- A subtree with the new node that is one higher than the frames expect. -/
structure Grown (h : Heap) (n : Addr) (fs : List (Frame Addr)) (u : BinaryTree Addr) (k : Nat) :
    Prop where
  tall : u.height = k + 1
  balanced : Balanced (fun a => (h a).balance) u
  frames : BalancedFrames (fun a => (h a).balance) fs k
  leads : Leads (fun a => (h a).descent_dir) u n
  /-- The root of the subtree is the new node or tilts towards it. -/
  turned : (top u = some n ∧ k = 0) ∨
    ∃ b, top u = some b ∧ b ≠ n ∧ (h b).balance = .toward (h b).descent_dir

/-- The heaps differ in balance only. -/
structure OnlyBalance (h h' : Heap) : Prop where
  links : ∀ a, SameLinks h h' a
  descent : ∀ a, (h' a).descent_dir = (h a).descent_dir
  data : h.SameData h'

theorem OnlyBalance.setBalance {h h' : Heap} (same : OnlyBalance h h') (a : Addr) (b : Tilt) :
    OnlyBalance h (h'.modify a (·.setBalance b)) where
  links x := by
    constructor
    · intro s
      rw [Heap.setBalance_child]
      exact (same.links x).1 s
    · rw [Heap.setBalance_parent]
      exact (same.links x).2
  descent x := by rw [Heap.setBalance_descent, same.descent]
  data := same.data.setBalance

theorem OnlyBalance.refl (h : Heap) : OnlyBalance h h :=
  ⟨fun _ => ⟨fun _ => rfl, rfl⟩, fun _ => rfl, .refl h⟩

theorem OnlyBalance.trans {h h' h'' : Heap} (first : OnlyBalance h h')
    (second : OnlyBalance h' h'') : OnlyBalance h h'' where
  links a := ⟨fun s => ((second.links a).1 s).trans ((first.links a).1 s),
    (second.links a).2.trans (first.links a).2⟩
  descent a := (second.descent a).trans (first.descent a)
  data := first.data.trans second.data

/-- One step of the climb: a balanced node tilts, and its subtree has grown. -/
theorem Grown.step {h : Heap} {n : Addr} {f : Frame Addr} {up : List (Frame Addr)}
    {u : BinaryTree Addr} {k : Nat} (grown : Grown h n (f :: up) u k)
    (nodup : (inorder (plug (f :: up) u)).Nodup)
    (follows : (h f.elem).descent_dir = f.side) (even : (h f.elem).balance = .even) :
    Grown (h.modify f.elem (·.setBalance (.toward f.side))) n up (f.fill u) (k + 1) ∧
      f.sibling.height = k := by
  have filled : (inorder (plug up (f.fill u))).Nodup := nodup
  obtain ⟨inner, apart⟩ := nodup_plug filled
  obtain ⟨notInside, notBeside, _, _, _⟩ := nodup_branch.mp inner
  have notAbove := apart f.elem (mem_inorder_branch.mpr (.inl rfl))
  obtain ⟨fits, sibling, outer⟩ := grown.frames
  have same : k = f.sibling.height := by
    rcases (Tilt.fits_branch _ _ _).mp fits with ⟨_, same⟩ | ⟨toward, _⟩ | ⟨toward, _⟩
    · exact same
    · cases even.symm.trans toward
    · cases even.symm.trans toward
  have elsewhere : ∀ a, a ≠ f.elem →
      ((h.modify f.elem (·.setBalance (.toward f.side))) a).balance = (h a).balance := by
    intro a differ
    rw [Heap.setBalance_balance, if_neg differ]
  have here : ((h.modify f.elem (·.setBalance (.toward f.side))) f.elem).balance =
      .toward f.side := by
    rw [Heap.setBalance_balance, if_pos rfl]
  have directions : (fun a => ((h.modify f.elem (·.setBalance (.toward f.side))) a).descent_dir) =
      fun a => (h a).descent_dir := funext fun a => Heap.setBalance_descent ..
  have tall := grown.tall
  refine ⟨⟨?_, ?_, ?_, ?_, ?_⟩, same.symm⟩
  · rw [Frame.fill, height_branch]
    omega
  · rw [Frame.fill, balanced_branch, Tilt.fits_branch, here]
    refine ⟨.inr (.inl ⟨rfl, by omega⟩), ?_, ?_⟩
    · exact grown.balanced.congr fun a member => elsewhere a fun same => notInside (same ▸ member)
    · exact sibling.congr fun a member => elsewhere a fun same => notBeside (same ▸ member)
  · rw [show max k f.sibling.height + 1 = k + 1 by omega] at outer
    exact outer.congr fun a outside => elsewhere a fun same => notAbove (same ▸ outside)
  · rw [directions]
    exact grown.leads.fill follows
  · refine .inr ⟨f.elem, by rw [Frame.fill, top_branch], ?_, ?_⟩
    · rintro rfl
      exact notInside grown.leads.mem
    · rw [here, Heap.setBalance_descent, follows]

/-- The climb stops below the root or at a tilted node. -/
theorem tiltPath_spec {n : Addr} {T : BinaryTree Addr} (nodup : (inorder T).Nodup)
    (rounds : Nat) (h : Heap) (f : Frame Addr) (up : List (Frame Addr)) (u : BinaryTree Addr)
    (k : Nat) (position : T = plug (f :: up) u) (enough : (f :: up).length ≤ rounds)
    (segment : Segment h (f :: up) (top u) none (top T)) (followed : Followed h (f :: up))
    (grown : Grown h n (f :: up) u k) :
    ∃ h' f' up' u' k', tiltPath (top T) rounds h f.elem = some (h', f'.elem) ∧
      T = plug (f' :: up') u' ∧ OnlyBalance h h' ∧ Followed h' (f' :: up') ∧
      Grown h' n (f' :: up') u' k' ∧ (up' = [] ∨ (h' f'.elem).balance ≠ .even) ∧
      ∀ w, w.height = k → ∃ w', w'.height = k' ∧ plug (f' :: up') w' = plug (f :: up) w := by
  induction rounds generalizing h f up u k with
  | zero => cases enough
  | succ rounds ih =>
    rw [tiltPath]
    by_cases atRoot : top T = some f.elem
    · rw [if_pos atRoot]
      have alone : up = [] := by
        cases up with
        | nil => rfl
        | cons g outer =>
          have filled : (inorder (plug (g :: outer) (f.fill u))).Nodup := position ▸ nodup
          have apart := (nodup_plug filled).2 f.elem (mem_inorder_branch.mpr (.inl rfl))
          exact absurd (around_top (by rw [position] at atRoot; exact atRoot)) apart
      exact ⟨h, f, up, u, k, rfl, position, .refl h, followed, grown, .inl alone,
        fun w height => ⟨w, height, rfl⟩⟩
    · rw [if_neg atRoot]
      by_cases even : (h f.elem).balance = .even
      · rw [if_neg (not_not.mpr even)]
        have follows : (h f.elem).descent_dir = f.side := followed f (List.mem_cons_self ..)
        obtain ⟨grown', sibling⟩ := grown.step (position ▸ nodup) follows even
        have modified : h.modify f.elem (fun n => n.setBalance (.toward n.descent_dir)) =
            h.modify f.elem (·.setBalance (.toward f.side)) := by
          funext x
          rw [Heap.modify_apply, Heap.modify_apply]
          by_cases here : x = f.elem
          · rw [if_pos here, if_pos here, here, follows]
          · rw [if_neg here, if_neg here]
        rw [modified]
        have only := (OnlyBalance.refl h).setBalance f.elem (.toward f.side)
        cases up with
        | nil =>
          have isTop : top T = some f.elem := by
            rw [position, plug_cons, plug_nil, Frame.fill, top_branch]
          exact absurd isTop atRoot
        | cons g outer =>
          have above : ((h.modify f.elem (·.setBalance (.toward f.side))) f.elem).avl_parent =
              some g.elem := by
            rw [Heap.setBalance_parent]
            exact segment.2.2.2.2.1
          simp only [above]
          have filled : (inorder (plug (g :: outer) (f.fill u))).Nodup := position ▸ nodup
          have rest : Segment (h.modify f.elem (·.setBalance (.toward f.side))) (g :: outer)
              (top (f.fill u)) none (top T) := by
            rw [Frame.fill, top_branch]
            exact segment.2.2.2.2.2.of_sameLinks filled fun a _ => only.links a
          have followed' : Followed (h.modify f.elem (·.setBalance (.toward f.side)))
              (g :: outer) :=
            fun e member => (only.descent e.elem).trans
              (followed e (List.mem_cons_of_mem f member))
          obtain ⟨h', f', up', u', k', done, position', only', follows', grown'', stop, heights⟩ :=
            ih _ g outer (f.fill u) (k + 1) position
              (by simp only [List.length_cons] at enough ⊢; omega) rest followed' grown'
          refine ⟨h', f', up', u', k', done, position', only.trans only', follows', grown'', stop,
            ?_⟩
          intro w height
          obtain ⟨w', height', same⟩ := heights (f.fill w) (by
            rw [Frame.fill, height_branch]
            omega)
          exact ⟨w', height', same⟩
      · rw [if_pos even]
        exact ⟨h, f, up, u, k, rfl, position, .refl h, followed, grown, .inr even,
          fun w height => ⟨w, height, rfl⟩⟩

/-! ## Rebalancing -/

/-- A tree in memory after rebalancing: it is balanced and of the recorded height,
has the given elements in order and leads to the new node. -/
structure Rebalanced (t t' : LocalTree) (elements : List Addr) (n : Addr)
    (T' : BinaryTree Addr) : Prop where
  root : t'.lvt.avl_root = top T'
  parentless : ParentIs t'.heap T' none
  linked : Linked t'.heap T'
  order : inorder T' = elements
  balanced : Balanced (fun a => (t'.heap a).balance) T'
  height : t'.lvt.avl_height = T'.height
  data : t.heap.SameData t'.heap
  clue : t'.lvt.lastLookup = t.lvt.lastLookup
  leads : Leads (fun a => (t'.heap a).descent_dir) T' n

/-- Changing the balance of the node at a position that has become even or has
grown at the root. -/
theorem rebalanced_setBalance {t : LocalTree} {n : Addr} {f : Frame Addr}
    {up : List (Frame Addr)} {u : BinaryTree Addr} {k H : Nat} {b : Tilt}
    (focus : Focus t (f :: up) u k) (grown : Grown t.heap n (f :: up) u k)
    (fits : b.Fits (f.side.pick (k + 1) f.sibling.height) (f.side.pick f.sibling.height (k + 1)))
    (outer : BalancedFrames (fun a => (t.heap a).balance) up (max (k + 1) f.sibling.height + 1))
    (height : H = (plug (f :: up) u).height) :
    Rebalanced t
      { heap := t.heap.modify f.elem (·.setBalance b), lvt := { t.lvt with avl_height := H } }
      (inorder (plug (f :: up) u)) n (plug (f :: up) u) := by
  have filled : (inorder (plug up (f.fill u))).Nodup := focus.nodup
  obtain ⟨inner, apart⟩ := nodup_plug filled
  obtain ⟨notInside, notBeside, _, _, _⟩ := nodup_branch.mp inner
  have notAbove := apart f.elem (mem_inorder_branch.mpr (.inl rfl))
  have only := (OnlyBalance.refl t.heap).setBalance f.elem b
  have elsewhere : ∀ a, a ≠ f.elem →
      ((t.heap.modify f.elem (·.setBalance b)) a).balance = (t.heap a).balance := by
    intro a differ
    rw [Heap.setBalance_balance, if_neg differ]
  obtain ⟨root, parentless, linked⟩ := linked_plug.mpr ⟨focus.segment, focus.parent, focus.linked⟩
  refine ⟨root, parentless.of_sameLinks fun a _ => only.links a,
    linked.of_sameLinks focus.nodup fun a _ => only.links a, rfl, ?_, height, only.data, rfl, ?_⟩
  · rw [balanced_plug]
    refine ⟨⟨?_, ?_, ?_⟩, ?_⟩
    · have here : ((t.heap.modify f.elem (·.setBalance b)) f.elem).balance = b := by
        rw [Heap.setBalance_balance, if_pos rfl]
      rw [grown.tall]
      show ((t.heap.modify f.elem (·.setBalance b)) f.elem).balance.Fits _ _
      rw [here]
      exact fits
    · exact grown.frames.2.1.congr fun a member =>
        elsewhere a fun same => notBeside (same ▸ member)
    · rw [grown.tall]
      exact outer.congr fun a outside => elsewhere a fun same => notAbove (same ▸ outside)
    · exact grown.balanced.congr fun a member => elsewhere a fun same => notInside (same ▸ member)
  · apply (grown.leads.within focus.followed).congr
    intro a _
    exact only.descent a

/-- An insertion leaves a balanced tree. -/
theorem rebalanceInsert_spec {t : LocalTree} {n : Addr} {f : Frame Addr}
    {up : List (Frame Addr)} {u w : BinaryTree Addr} {k : Nat} (focus : Focus t (f :: up) u k)
    (grown : Grown t.heap n (f :: up) u k)
    (stop : up = [] ∨ (t.heap f.elem).balance ≠ .even) (before : w.height = k)
    (height : t.lvt.avl_height = (plug (f :: up) w).height) :
    ∃ t' T', rebalanceInsert t f.elem = some t' ∧
      Rebalanced t t' (inorder (plug (f :: up) u)) n T' := by
  have follows : (t.heap f.elem).descent_dir = f.side := focus.followed f (List.mem_cons_self ..)
  obtain ⟨near, far, beside, siblingLinked, above, rest⟩ := focus.segment
  obtain ⟨fits, siblingBalanced, outer⟩ := grown.frames
  have tall := grown.tall
  simp only [rebalanceInsert, follows, near]
  rcases (Tilt.fits_branch _ _ _).mp fits with ⟨even, same⟩ | ⟨towards, higher⟩ | ⟨away, lower⟩
  · -- Only the root can be balanced still: the tree has grown.
    have alone : up = [] := stop.resolve_right (not_not.mpr even)
    subst alone
    rw [if_pos even]
    refine ⟨_, _, rfl, rebalanced_setBalance focus grown ?_ trivial ?_⟩
    · exact (Tilt.fits_branch _ _ _).mpr (.inr (.inl ⟨rfl, by omega⟩))
    · rw [height, plug_cons, plug_cons, plug_nil, plug_nil, Frame.fill, Frame.fill, height_branch,
        height_branch]
      omega
  · have uneven : (t.heap f.elem).balance ≠ .even := by
      intro even
      cases even.symm.trans towards
    have notAway : (t.heap f.elem).balance ≠ .toward f.side.other := by
      intro away
      exact f.side.other_ne (Tilt.toward.inj (away.symm.trans towards))
    rw [if_neg uneven, if_neg notAway]
    rcases grown.turned with ⟨_, leaf⟩ | ⟨b, isTop, differ, turned⟩
    · omega
    · rw [isTop, above]
      have filled : Focus t up (branch f.side f.elem u f.sibling)
          (max k f.sibling.height + 1) := by
        refine ⟨?_, ?_, ?_, focus.nodup, ?_, outer⟩
        · rw [top_branch]
          exact rest
        · rw [parentIs_branch]
          exact above
        · rw [linked_branch]
          exact ⟨near, far, focus.parent, beside, focus.linked, siblingLinked⟩
        · exact fun g member => focus.followed g (List.mem_cons_of_mem f member)
      obtain ⟨h', c, u', chosen, t', rfl, focus', relinked, order, balanced, newHeight, leads⟩ :=
        filled.rotate isTop towards grown.balanced siblingBalanced (by omega)
      have unevenB : (t.heap b).balance ≠ .even := by
        intro even
        cases even.symm.trans turned
      simp only [unevenB, false_or, if_false] at chosen newHeight
      simp only [Option.bind_eq_bind, Option.bind_some]
      refine ⟨{ t with heap := h'.modify c (·.setParent (parentOf up none)) }.replaceChild
        (parentOf up none) (some c), plug up u', ?_, ?_⟩
      · split at chosen
        next single => rw [if_pos single, Option.some.inj chosen]
        next double =>
          rw [if_neg double, chosen]
          rfl
      obtain ⟨root, parentless, linked⟩ :=
        linked_plug.mpr ⟨focus'.segment, focus'.parent, focus'.linked⟩
      have sameHeight : u'.height = max k f.sibling.height + 1 := by omega
      refine ⟨root, parentless, linked, ?_, ?_, ?_, relinked.data, relinked.clue, ?_⟩
      · rw [plug_cons, inorder_plug, inorder_plug, order]
        rfl
      · rw [balanced_plug, sameHeight]
        exact ⟨focus'.frames, balanced⟩
      · rw [relinked.height, height, plug_cons]
        apply height_plug_congr
        rw [Frame.fill, height_branch, before, sameHeight]
      · exact (leads n follows turned differ grown.leads).within focus'.followed
  · have uneven : (t.heap f.elem).balance ≠ .even := by
      intro even
      cases even.symm.trans away
    rw [if_neg uneven, if_pos away]
    refine ⟨_, _, rfl, rebalanced_setBalance (H := t.lvt.avl_height) focus grown ?_ ?_ ?_⟩
    · exact (Tilt.fits_branch _ _ _).mpr (.inl ⟨rfl, by omega⟩)
    · rw [show max (k + 1) f.sibling.height + 1 = max k f.sibling.height + 1 by omega]
      exact outer
    · rw [height, plug_cons, plug_cons]
      apply height_plug_congr
      rw [Frame.fill, Frame.fill, height_branch, height_branch]
      omega

/-! ## Inserting -/

/-- Distinct elements have one place in the list. -/
theorem split_unique {a : Addr} {l l' r r' : List Addr} (nodup : (l ++ a :: r).Nodup)
    (same : l ++ a :: r = l' ++ a :: r') : l = l' ∧ r = r' := by
  rw [List.nodup_append] at nodup
  obtain ⟨_, tail, apart⟩ := nodup
  have notLeft : a ∉ l := fun inside => apart a inside a (List.mem_cons_self ..) rfl
  have notRight : a ∉ r := (List.nodup_cons.mp tail).1
  obtain ⟨left, _, right⟩ := (List.append_cons_inj_of_notMem notLeft notRight).mp same
  exact ⟨left, right⟩

/-- The nearest elements depend on the order only, where a side is empty. -/
theorem nearest_of_order {fs gs : List (Frame Addr)} {c : Addr} {l r l' r' : BinaryTree Addr}
    (nodup : (inorder (plug fs (.node c l r))).Nodup)
    (same : inorder (plug fs (.node c l r)) = inorder (plug gs (.node c l' r'))) :
    (l = .nil → l' = .nil → nearest .left fs = nearest .left gs) ∧
      (r = .nil → r' = .nil → nearest .right fs = nearest .right gs) := by
  have flat (es : List (Frame Addr)) (x y : BinaryTree Addr) :
      inorder (plug es (.node c x y)) =
        (before es ++ inorder x) ++ c :: (inorder y ++ after es) := by
    rw [inorder_plug, inorder]
    simp
  rw [flat, flat] at same
  rw [flat] at nodup
  obtain ⟨left, right⟩ := split_unique nodup same
  constructor
  · rintro rfl rfl
    simp only [inorder, List.append_nil] at left
    rw [nearest, nearest, left]
    rfl
  · rintro rfl rfl
    simp only [inorder, List.nil_append] at right
    rw [nearest, nearest, right]
    rfl

/-- What an insertion leaves: the tree with exactly the new node added at its place
in the order, all other contents as they were, and a clue at the new node. -/
structure Inserted (t : LocalTree) (T : BinaryTree Addr) (key : TreeKeySubscr) (node : Addr)
    (t' : LocalTree) (T' : BinaryTree Addr) : Prop where
  wellFormed : t'.WellFormed T'
  clue : t'.ClueOk T'
  atNode : t'.lvt.lastLookup.lastNodeLookedUp = some node
  order : ∃ front back, inorder T = front ++ back ∧ inorder T' = front ++ node :: back
  others : ∀ a, a ≠ node → (t.heap a).SameData (t'.heap a)
  subscript : (t'.heap node).subscript = key.subscript
  value : (t'.heap node).v = (t.heap node).v ∧ (t'.heap node).sbs_child = none

/-- Inserting below the root of an empty tree. -/
theorem lvAvlTreeNodeInsert_empty {t : LocalTree} {key : TreeKeySubscr} (valid : key.Valid)
    (node : Addr) : ∃ t', lvAvlTreeNodeInsert t key none node = some t' ∧
      Inserted t .nil key node t' (.node node .nil .nil) := by
  obtain ⟨children, parent, balance, _, value, child⟩ :=
    newNode_links (t.heap node) key none
  refine ⟨_, rfl, ?_⟩
  have here : Function.update t.heap node (newNode (t.heap node) key none) node =
      newNode (t.heap node) key none := Function.update_self ..
  have others : ∀ a, a ≠ node →
      Function.update t.heap node (newNode (t.heap node) key none) a = t.heap a :=
    fun a differ => Function.update_of_ne differ ..
  refine ⟨⟨rfl, ?_, ?_, ?_, ?_, rfl, ?_⟩, ?_, rfl, ⟨[], [], rfl, rfl⟩, ?_, ?_, ?_⟩
  · rintro a isTop
    obtain rfl := Option.some.inj isTop
    dsimp only
    rw [here]
    exact parent
  · have left := children .left
    have right := children .right
    refine ⟨?_, ?_, ?_, ?_, trivial, trivial⟩
    · dsimp only
      rw [here]
      exact left
    · dsimp only
      rw [here]
      exact right
    · intro a isTop
      cases isTop
    · intro a isTop
      cases isTop
  · exact List.pairwise_singleton _ _
  · refine ⟨?_, trivial, trivial⟩
    dsimp only
    rw [here, balance]
    rfl
  · intro a member
    obtain rfl := List.mem_singleton.mp member
    dsimp only
    rw [here]
    exact newNode_validKey valid
  · intro c isClue
    obtain rfl := Option.some.inj isClue
    exact ⟨[], .nil, .nil, rfl, followed_nil _, fun _ => rfl, fun _ => rfl⟩
  · intro a differ
    dsimp only
    rw [others a differ]
    exact .refl _
  · dsimp only
    rw [here]
    exact newNode_subscript
  · dsimp only
    rw [here]
    exact ⟨value, child⟩

/-- The clue of a failed lookup bounds the place of the key on the side on which
the parent does not. -/
theorem place_bounds {t : LocalTree} {f : Frame Addr} {up : List (Frame Addr)}
    (wf : t.WellFormed (plug (f :: up) .nil)) (clueAt : t.ClueAt (plug (f :: up) .nil) f.elem) :
    nearest .left (f :: up) = f.side.pick t.lvt.lastLookup.lastNodeMin (some f.elem) ∧
      nearest .right (f :: up) = f.side.pick (some f.elem) t.lvt.lastLookup.lastNodeMax := by
  obtain ⟨elem, side, sibling⟩ := f
  obtain ⟨gs, l, r, whole, _, low, high⟩ := clueAt
  obtain ⟨left, right⟩ := nearest_step side elem sibling up
  have empty : (t.heap elem).child side = none := by
    have atParent : t.WellFormed (plug up (branch side elem .nil sibling)) := wf
    exact atParent.child
  rw [left, right]
  cases side with
  | left =>
    refine ⟨?_, rfl⟩
    have atClue : t.WellFormed (plug gs (branch .left elem l r)) := whole ▸ wf
    have isEmpty : l = .nil := top_eq_none.mp (atClue.child.symm.trans empty)
    have order := nearest_of_order (show (inorder (plug up (.node elem .nil sibling))).Nodup from
      wf.nodup) (congrArg inorder whole)
    exact (order.1 rfl isEmpty).trans (low isEmpty).symm
  | right =>
    refine ⟨rfl, ?_⟩
    have atClue : t.WellFormed (plug gs (branch .right elem r l)) := whole ▸ wf
    have isEmpty : r = .nil := top_eq_none.mp (atClue.child.symm.trans empty)
    have order := nearest_of_order (show (inorder (plug up (.node elem sibling .nil))).Nodup from
      wf.nodup) (congrArg inorder whole)
    exact (order.2 rfl isEmpty).trans (high isEmpty).symm

/-- The keys with a new one at its place are in order. -/
theorem sorted_insert {key : Addr → LocalSubscript} {fs : List (Frame Addr)} {node : Addr}
    (sorted : SortedBy key (plug fs .nil))
    (between : ∀ s, ∀ a ∈ beyond s fs, s.Past (key node) (key a)) :
    SortedBy key (plug fs (.node node .nil .nil)) := by
  rw [SortedBy, inorder_plug, List.pairwise_map] at sorted ⊢
  simp only [inorder, List.nil_append, List.cons_append] at sorted ⊢
  obtain ⟨front, back, across⟩ := List.pairwise_append.mp sorted
  rw [List.pairwise_append]
  refine ⟨front, List.pairwise_cons.mpr ⟨between .right, back⟩, ?_⟩
  intro a inFront b member
  rcases List.mem_cons.mp member with rfl | inBack
  · exact between .left a inFront
  · exact across a inFront b inBack

/-- The tree after the new node is linked to its parent, before rebalancing. -/
theorem insert_focus {t : LocalTree} {f : Frame Addr} {up : List (Frame Addr)}
    (wf : t.WellFormed (plug (f :: up) .nil)) (followed : Followed t.heap (f :: up))
    {node : Addr} (fresh : node ∉ inorder (plug (f :: up) .nil)) (n : LvTreeNode)
    (children : ∀ s, n.child s = none) (parent : n.avl_parent = some f.elem)
    (balance : n.balance = .even) (lastLookup : TreeSrchStatus) :
    ∃ t₁ : LocalTree,
      t₁ = ⟨Heap.modify (Function.update t.heap node n) f.elem (·.setChild f.side (some node)),
        { t.lvt with lastLookup := lastLookup }⟩ ∧
      Focus t₁ (f :: up) (.node node .nil .nil) 0 ∧
      Grown t₁.heap node (f :: up) (.node node .nil .nil) 0 ∧
      (∀ a, a ≠ node → (t.heap a).SameData (t₁.heap a)) ∧ n.SameData (t₁.heap node) := by
  have notAround : ¬ Around (f :: up) node := fun around => fresh (mem_inorder_plug.mpr (.inr around))
  have differ : f.elem ≠ node := by
    rintro rfl
    exact notAround (around_cons.mpr (.inl rfl))
  have updated : ∀ a, a ≠ node → Function.update t.heap node n a = t.heap a :=
    fun a other => Function.update_of_ne other ..
  let t₀ : LocalTree := ⟨Function.update t.heap node n, { t.lvt with lastLookup := lastLookup }⟩
  have kept : ∀ a, Around (f :: up) a → t₀.heap a = t.heap a := by
    intro a around
    apply updated
    rintro rfl
    exact notAround around
  have followed₀ : Followed t₀.heap (f :: up) := by
    intro g member
    rw [kept g.elem (frame_around member)]
    exact followed g member
  have nodup : (inorder (plug (f :: up) (.node node .nil .nil))).Nodup := by
    have old := wf.nodup
    rw [inorder_plug] at old fresh ⊢
    simp only [inorder, List.nil_append, List.cons_append] at old fresh ⊢
    exact (List.perm_middle.nodup_iff).mpr (List.nodup_cons.mpr ⟨fresh, old⟩)
  have linkedTo : (t₀.replaceChild (parentOf (f :: up) none) (some node)) =
      ⟨Heap.modify (Function.update t.heap node n) f.elem (·.setChild f.side (some node)),
        { t.lvt with lastLookup := lastLookup }⟩ := by
    have direction : (Function.update t.heap node n f.elem).descent_dir = f.side :=
      followed₀ f (List.mem_cons_self ..)
    simp only [LocalTree.replaceChild, parentOf, t₀, LocalTree.mk.injEq, and_true]
    funext x
    rw [Heap.modify_apply, Heap.modify_apply]
    by_cases here : x = f.elem
    · rw [if_pos here, if_pos here, here, direction]
    · rw [if_neg here, if_neg here]
  have atNode : (t₀.replaceChild (parentOf (f :: up) none) (some node)).heap node = n := by
    rw [replaceChild_of_not_around notAround]
    exact Function.update_self ..
  obtain ⟨segment, _, _⟩ := linked_plug.mp ⟨wf.root, wf.parentless, wf.linked⟩
  have segment₀ : Segment t₀.heap (f :: up) none none t₀.lvt.avl_root := by
    apply segment.of_sameLinks wf.nodup
    intro a around
    rw [SameLinks, kept a around]
    exact ⟨fun _ => rfl, rfl⟩
  obtain ⟨framesBalanced, _⟩ := balanced_plug.mp wf.balanced
  have frames : BalancedFrames
      (fun a => ((t₀.replaceChild (parentOf (f :: up) none) (some node)).heap a).balance)
      (f :: up) 0 := by
    apply framesBalanced.congr
    intro a around
    rw [replaceChild_balance, kept a around]
  refine ⟨_, linkedTo, ⟨?_, ?_, ?_, nodup, ?_, frames⟩, ⟨rfl, ?_, frames, ?_, .inl ⟨rfl, rfl⟩⟩,
    ?_, ?_⟩
  · exact replaceChild_segment segment₀ followed₀ nodup
  · intro a isTop
    obtain rfl := Option.some.inj isTop
    rw [atNode]
    exact parent
  · refine ⟨?_, ?_, ?_, ?_, trivial, trivial⟩
    · rw [atNode]
      exact children .left
    · rw [atNode]
      exact children .right
    · intro a isTop
      cases isTop
    · intro a isTop
      cases isTop
  · intro g member
    rw [replaceChild_descent]
    exact followed₀ g member
  · refine ⟨?_, trivial, trivial⟩
    dsimp only
    rw [atNode, balance]
    rfl
  · exact leads_root _ .left node .nil .nil
  · intro a other
    have data := replaceChild_data (t := t₀) (c := some node) (parentOf (f :: up) none) a
    rw [show t₀.heap a = t.heap a from updated a other] at data
    exact data
  · rw [atNode]
    exact .refl _

/-- Insertion of a key whose lookup failed, at any place of the tree. -/
theorem lvAvlTreeNodeInsert_spec {t : LocalTree} {T : BinaryTree Addr} {key : TreeKeySubscr}
    {parent : Option Addr} {node : Addr} (wf : t.WellFormed T) (clueOk : t.ClueOk T)
    (valid : key.Valid) (place : t.PlaceOf T key.subscript parent) (fresh : node ∉ inorder T) :
    ∃ t' T', lvAvlTreeNodeInsert t key parent node = some t' ∧
      Inserted t T key node t' T' := by
  obtain ⟨fs, rfl, rfl, followed, isClue, between⟩ := place
  cases fs with
  | nil =>
    obtain ⟨t', done, inserted⟩ := lvAvlTreeNodeInsert_empty (t := t) valid node
    exact ⟨t', _, done, inserted⟩
  | cons f up =>
    obtain ⟨children, parent, balance, _, value, child⟩ :=
      newNode_links (t.heap node) key (some f.elem)
    have notAround : ¬ Around (f :: up) node :=
      fun around => fresh (mem_inorder_plug.mpr (.inr around))
    have differ : f.elem ≠ node := by
      rintro rfl
      exact notAround (around_cons.mpr (.inl rfl))
    have direction : (Function.update t.heap node (newNode (t.heap node) key (some f.elem))
        f.elem).descent_dir = f.side := by
      rw [Function.update_of_ne differ]
      exact followed f (List.mem_cons_self ..)
    obtain ⟨low, high⟩ := place_bounds wf (clueOk f.elem isClue)
    obtain ⟨t₁, shape, focus, grown, others, atNode⟩ := insert_focus wf followed fresh
      (newNode (t.heap node) key (some f.elem)) children parent balance
      ⟨some node, nearest .left (f :: up), nearest .right (f :: up)⟩
    obtain ⟨root, parentless, linked⟩ :=
      linked_plug.mpr ⟨focus.segment, focus.parent, focus.linked⟩
    have rootSame : t.lvt.avl_root = top (plug (f :: up) (.node node .nil .nil)) := by
      rw [← root, shape]
    have enough : (f :: up).length ≤ t.lvt.avl_height := by
      rw [wf.height]
      exact Nat.le_of_add_right_le (length_le_height (f :: up) .nil)
    have segment₁ : Segment t₁.heap (f :: up) (top (.node node .nil .nil)) none
        (top (plug (f :: up) (.node node .nil .nil))) := root ▸ focus.segment
    obtain ⟨h', f', up', u', k', climbed, position, only, followed', grown', stop, heights⟩ :=
      tiltPath_spec focus.nodup t.lvt.avl_height t₁.heap f up (.node node .nil .nil) 0 rfl enough
        segment₁ focus.followed grown
    obtain ⟨w, wHeight, same⟩ := heights .nil rfl
    -- The climb changed balances only, so the place where it stopped is in memory too.
    have focus' : Focus { t₁ with heap := h' } (f' :: up') u' k' := by
      have whole : t₁.lvt.avl_root = top (plug (f' :: up') u') ∧
          ParentIs h' (plug (f' :: up') u') none ∧ Linked h' (plug (f' :: up') u') := by
        rw [← position]
        exact ⟨root, parentless.of_sameLinks fun a _ => only.links a,
          linked.of_sameLinks focus.nodup fun a _ => only.links a⟩
      obtain ⟨segment', parent', linked'⟩ := linked_plug.mp whole
      exact ⟨segment', parent', linked', position ▸ focus.nodup, followed', grown'.frames⟩
    have height : t₁.lvt.avl_height = (plug (f' :: up') w).height := by
      rw [same, shape]
      exact wf.height
    obtain ⟨t', T', rebalanced, result⟩ := rebalanceInsert_spec focus' grown' stop wHeight height
    rw [← position] at result
    refine ⟨t', T', ?_, ?_⟩
    · simp only [lvAvlTreeNodeInsert, parentOf, direction, ← low, ← high, rootSame]
      rw [shape] at climbed rebalanced
      simp only [climbed, Option.bind_eq_bind, Option.bind_some]
      rw [← rootSame]
      exact rebalanced
    · have data : ∀ a, a ≠ node → (t.heap a).SameData (t'.heap a) :=
        fun a other => ((others a other).trans (only.data a)).trans (result.data a)
      have nodeData := (atNode.trans (only.data node)).trans (result.data node)
      have keys : ∀ a ∈ inorder (plug (f :: up) .nil),
          (t'.heap a).subscript = (t.heap a).subscript := by
        intro a member
        apply (data a _).1
        rintro rfl
        exact fresh member
      have nodeKey : (t'.heap node).subscript = key.subscript :=
        nodeData.1.trans newNode_subscript
      have sorted : SortedBy (fun a => (t'.heap a).subscript) T' := by
        have old : SortedBy (fun a => (t'.heap a).subscript) (plug (f :: up) .nil) := by
          have before := wf.sorted
          rw [SortedBy, List.pairwise_map] at before ⊢
          apply before.imp_of_mem
          intro a b aMember bMember smaller
          rw [keys a aMember, keys b bMember]
          exact smaller
        rw [SortedBy, result.order]
        apply sorted_insert old
        intro s a member
        have inTree : a ∈ inorder (plug (f :: up) .nil) := by
          apply mem_inorder_plug.mpr
          right
          cases s
          · exact .inl member
          · exact .inr member
        rw [nodeKey, keys a inTree]
        exact between s a member
      have flat : ∀ u : BinaryTree Addr, inorder (plug (f :: up) u) =
          before (f :: up) ++ (inorder u ++ after (f :: up)) := inorder_plug (f :: up)
      refine ⟨⟨result.root, result.parentless, result.linked, sorted, result.balanced,
        result.height, ?_⟩, ?_, ?_, ?_, data, nodeKey, ?_, ?_⟩
      · intro a member
        rw [result.order, flat] at member
        by_cases here : a = node
        · subst here
          exact nodeData.2.2.2 (newNode_validKey valid)
        · apply (data a here).2.2.2
          apply wf.validKeys
          rw [flat]
          simp only [inorder, List.nil_append, List.cons_append, List.mem_append,
            List.mem_cons] at member ⊢
          tauto
      · intro c isClue'
        rw [result.clue, shape] at isClue'
        obtain rfl := Option.some.inj isClue'
        obtain ⟨gs, l, r, whole, along⟩ := result.leads
        have order : inorder (plug gs (.node node l r)) =
            inorder (plug (f :: up) (.node node .nil .nil)) := by
          rw [← whole]
          exact result.order
        have bounds := nearest_of_order (by rw [order]; exact focus.nodup) order
        refine ⟨gs, l, r, whole, along, ?_, ?_⟩
        · intro empty
          rw [result.clue, shape]
          exact (bounds.1 empty rfl).symm
        · intro empty
          rw [result.clue, shape]
          exact (bounds.2 empty rfl).symm
      · rw [result.clue, shape]
      · exact ⟨before (f :: up), after (f :: up), by rw [flat]; rfl, by rw [result.order, flat]; rfl⟩
      · rw [nodeData.2.1]
        exact value
      · rw [nodeData.2.2.1]
        exact child

end Ydb
