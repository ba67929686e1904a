import Ydb.LocalTreeLookup
import Ydb.Lib.Closest

/-!
# Neighbours in the tree of a local variable

The routines that step through a tree go down to the end of a subtree or up through
the parents; the two directions mirror each other. Each gives the closest node of the
tree on its side. The routines that start from a key look it up first, and from the
place of an absent key the direction of the last descent tells on which side of the
parent it is.
-/

namespace Ydb

open Lib

/-! ## The routines -/

/-- Follow the pointers of one side to the end. -/
def walkTo (h : Heap) (side : Side) : Nat → Addr → Option Addr
  | 0, _ => none
  | rounds + 1, node =>
    match (h node).child side with
    | none => some node
    | some next => walkTo h side rounds next

/-- The end of the whole tree on one side. -/
def LocalTree.endNode (t : LocalTree) (side : Side) : Option (Option Addr) :=
  match t.lvt.avl_root with
  | none => some none
  | some next => (walkTo t.heap side t.lvt.avl_height next).map some

/-- The leftmost node. -/
def lvAvlTreeFirst (t : LocalTree) : Option (Option Addr) := t.endNode .left

/-- The rightmost node. -/
def lvAvlTreeLast (t : LocalTree) : Option (Option Addr) := t.endNode .right

/-- Climb until a parent has the node on its other side. -/
def climbTo (h : Heap) (side : Side) : Nat → (tmp : Addr) → (parent : Option Addr) →
    Option (Option Addr)
  | 0, _, _ => none
  | _ + 1, _, none => some none
  | rounds + 1, tmp, some parent =>
    if (h parent).child side.other = some tmp then some (some parent)
    else climbTo h side rounds parent (h parent).avl_parent

/-- The neighbour of a node: the near end of its subtree on that side, or else an
ancestor. -/
def LocalTree.neighbour (t : LocalTree) (side : Side) (node : Addr) : Option (Option Addr) :=
  match (t.heap node).child side with
  | some below => (walkTo t.heap side.other t.lvt.avl_height below).map some
  | none => climbTo t.heap side (t.lvt.avl_height + 1) node (t.heap node).avl_parent

/-- The node in front, in tree order. -/
def lvAvlTreePrev (t : LocalTree) (node : Addr) : Option (Option Addr) := t.neighbour .left node

/-- The node behind, in tree order. -/
def lvAvlTreeNext (t : LocalTree) (node : Addr) : Option (Option Addr) := t.neighbour .right node

/-- The node next to a key, which need not be in the tree. The caller's variable for
the parent is not initialised. -/
def LocalTree.keyNeighbour (t : LocalTree) (side : Side) (key : TreeKeySubscr) :
    Option (LocalTree × Option Addr) := do
  let (t, node, parent) ← lvAvlTreeLookup t key none
  match node with
  | some node => (t.neighbour side node).map fun r => (t, r)
  | none =>
    let parent ← parent
    if (t.heap parent).descent_dir = side then (t.neighbour side parent).map fun r => (t, r)
    else some (t, some parent)

/-- The last node in front of a key. -/
def lvAvlTreeKeyPrev (t : LocalTree) (key : TreeKeySubscr) : Option (LocalTree × Option Addr) :=
  t.keyNeighbour .left key

/-- The first node behind a key. -/
def lvAvlTreeKeyNext (t : LocalTree) (key : TreeKeySubscr) : Option (LocalTree × Option Addr) :=
  t.keyNeighbour .right key

open BinaryTree

/-! ## Ends of subtrees -/

/-- The subscripts of the nodes in memory. -/
def LocalTree.rank (t : LocalTree) (a : Addr) : LocalSubscript := (t.heap a).subscript

section Neighbours

variable {t : LocalTree} {T : BinaryTree Addr}

/-- The walk ends at the node of the subtree from which all others lie on the other
side. -/
theorem walkTo_spec (wf : t.WellFormed T) (side : Side) (u : BinaryTree Addr)
    (fs : List (Frame Addr)) (rounds : Nat) (node : Addr) (position : T = plug fs u)
    (isTop : top u = some node) (enough : u.height ≤ rounds) :
    ∃ last, walkTo t.heap side rounds node = some last ∧
      Closest side.other t.rank {b | b ∈ inorder u} (some last) := by
  induction u generalizing fs rounds node with
  | nil => cases isTop
  | node a l r leftHypothesis rightHypothesis =>
    obtain rfl := Option.some.inj isTop
    obtain ⟨rounds, rfl⟩ : ∃ n, rounds = n + 1 :=
      Nat.exists_eq_succ_of_ne_zero (by simp only [BinaryTree.height] at enough; omega)
    obtain ⟨near, far, split, near_cases⟩ : ∃ near far, BinaryTree.node a l r =
        branch side a near far ∧ (near = l ∨ near = r) := by
      cases side
      · exact ⟨l, r, rfl, .inl rfl⟩
      · exact ⟨r, l, rfl, .inr rfl⟩
    rw [split] at position enough ⊢
    have wf' := position ▸ wf
    obtain ⟨nearPast, farPast, _⟩ := wf'.sorted.position
    have position' : T = plug (⟨a, side, far⟩ :: fs) near := position
    rw [height_branch] at enough
    rw [walkTo, wf'.child]
    cases isNear : top near with
    | none =>
      refine ⟨a, rfl, mem_inorder_branch.mpr (.inl rfl), ?_⟩
      intro b member differ
      rcases mem_inorder_branch.mp member with same | inNear | inFar
      · exact absurd same differ
      · rw [top_eq_none.mp isNear] at inNear
        cases inNear
      · exact farPast b inFar
    | some next =>
      have below : ∃ last, walkTo t.heap side rounds next = some last ∧
          Closest side.other t.rank {b | b ∈ inorder near} (some last) := by
        rcases near_cases with rfl | rfl
        · exact leftHypothesis _ rounds next position' isNear (by omega)
        · exact rightHypothesis _ rounds next position' isNear (by omega)
      obtain ⟨last, done, inNear, others⟩ := below
      refine ⟨last, done, mem_inorder_branch.mpr (.inr (.inl inNear)), ?_⟩
      have back : side.other.Past (t.rank last) (t.rank a) :=
        Side.past_other.mpr (nearPast last inNear)
      intro b member differ
      rcases mem_inorder_branch.mp member with rfl | alsoNear | inFar
      · exact back
      · exact others b alsoNear differ
      · exact back.trans (farPast b inFar)

theorem LocalTree.WellFormed.endNode (wf : t.WellFormed T) (side : Side) :
    ∃ r, t.endNode side = some r ∧ Closest side.other t.rank {b | b ∈ inorder T} r := by
  rw [LocalTree.endNode, wf.root]
  cases isTop : top T with
  | none =>
    refine ⟨none, rfl, ?_⟩
    rw [top_eq_none.mp isTop]
    ext b
    simp [inorder]
  | some root =>
    obtain ⟨last, done, closest⟩ :=
      walkTo_spec wf side T [] t.lvt.avl_height root rfl isTop (le_of_eq wf.height.symm)
    exact ⟨some last, by simp only [done, Option.map_some], closest⟩

/-! ## Ancestors -/

/-- The climb stops at the nearest node outside the position. -/
theorem climbTo_spec {h : Heap} (side : Side) (fs : List (Frame Addr)) (u : BinaryTree Addr)
    (tmp : Addr) (whole : Option Addr) (rounds : Nat) (isTop : top u = some tmp)
    (segment : Segment h fs (some tmp) none whole) (nodup : (inorder (plug fs u)).Nodup)
    (enough : fs.length < rounds) :
    climbTo h side rounds tmp (parentOf fs none) = some (nearest side fs) := by
  induction fs generalizing u tmp rounds with
  | nil =>
    obtain ⟨rounds, rfl⟩ := Nat.exists_eq_succ_of_ne_zero (Nat.ne_of_gt enough)
    cases side <;> rfl
  | cons f up ih =>
    obtain ⟨rounds, rfl⟩ := Nat.exists_eq_succ_of_ne_zero (Nat.ne_of_gt (Nat.zero_lt_of_lt enough))
    obtain ⟨child, sibling, _, _, parent, outer⟩ := segment
    rw [nearest_cons]
    show (if (h f.elem).child side.other = some tmp then some (some f.elem)
      else climbTo h side rounds f.elem (h f.elem).avl_parent) = _
    by_cases same : f.side = side
    · have apart := (nodup_plug nodup).2 tmp (top_mem isTop)
      have notHere : (h f.elem).child side.other ≠ some tmp := by
        intro isSibling
        rw [← same, sibling] at isSibling
        exact apart (around_cons.mpr (.inr (.inl (top_mem isSibling))))
      rw [if_neg notHere, if_pos same, parent]
      apply ih (f.fill u) f.elem rounds (top_branch _ _ _ _) outer nodup
      rw [List.length_cons] at enough
      omega
    · rw [if_neg same, ← Side.eq_other_of_ne same, if_pos child]

/-- The nearest node outside a position is the closest of all that lie there. -/
theorem closest_nearest {κ : Type*} [Preorder κ] {key : Addr → κ} {fs : List (Frame Addr)}
    {u : BinaryTree Addr} (side : Side) (sorted : SortedBy key (plug fs u)) :
    Closest side key {b | b ∈ beyond side fs} (nearest side fs) := by
  cases isNearest : nearest side fs with
  | none =>
    rw [beyond_of_nearest_none isNearest]
    ext b
    simp
  | some m =>
    constructor
    · cases side
      · exact List.mem_of_getLast? isNearest
      · exact List.mem_of_head? isNearest
    · intro b member differ
      rcases sorted.nearest isNearest b member with same | past
      · exact absurd same differ
      · exact past

/-- The nodes past a node are those of its near subtree and those outside. -/
theorem past_position {fs : List (Frame Addr)} {side : Side} {a : Addr}
    {near far : BinaryTree Addr} (wf : t.WellFormed (plug fs (branch side a near far))) (b : Addr) :
    b ∈ inorder (plug fs (branch side a near far)) ∧ side.Past (t.rank a) (t.rank b) ↔
      b ∈ inorder near ∨ b ∈ beyond side fs := by
  obtain ⟨nearPast, farPast, outer⟩ := wf.sorted.position
  have sides : Around fs b ↔ b ∈ beyond side fs ∨ b ∈ beyond side.other fs := by
    cases side
    · exact Iff.rfl
    · exact or_comm
  rw [mem_inorder_plug, mem_inorder_branch, sides]
  constructor
  · rintro ⟨(rfl | inNear | inFar) | here | there, past⟩
    · exact absurd past Side.not_past_self
    · exact .inl inNear
    · exact absurd past (Side.past_other.mp (farPast b inFar)).asymm
    · exact .inr here
    · exact absurd past (Side.past_other.mp (outer side.other b there)).asymm
  · rintro (inNear | here)
    · exact ⟨.inl (.inr (.inl inNear)), nearPast b inNear⟩
    · exact ⟨.inr (.inl here), outer side b here⟩

/-- The neighbour of a node is the closest node past it. -/
theorem LocalTree.WellFormed.neighbour (wf : t.WellFormed T) (side : Side) {a : Addr}
    (member : a ∈ inorder T) :
    ∃ r, t.neighbour side a = some r ∧
      Closest side t.rank {b | b ∈ inorder T ∧ side.Past (t.rank a) (t.rank b)} r := by
  obtain ⟨fs, l, r, whole⟩ := exists_position member
  obtain ⟨near, far, split⟩ := exists_branch side a l r
  rw [split] at whole
  subst whole
  have room := length_le_height fs (branch side a near far)
  have high := height_branch side a near far
  rw [← wf.height] at room
  rw [LocalTree.neighbour, wf.child]
  simp only [past_position wf]
  cases isNear : top near with
  | some below =>
    obtain ⟨last, done, inNear, others⟩ :=
      walkTo_spec wf side.other near (⟨a, side, far⟩ :: fs) t.lvt.avl_height below rfl isNear
        (by omega)
    rw [Side.other_other] at others
    refine ⟨some last, by simp only [done, Option.map_some], .inl inNear, ?_⟩
    intro b place differ
    rcases place with alsoNear | outside
    · exact others b alsoNear differ
    · have sorted : SortedBy t.rank (plug (⟨a, side, far⟩ :: fs) near) := wf.sorted
      exact sorted.inside inNear (mem_beyond_cons.mpr (.inl outside))
  | none =>
    obtain ⟨segment, parent, _⟩ := linked_plug.mp ⟨wf.root, wf.parentless, wf.linked⟩
    rw [top_branch] at segment
    have isParent : (t.heap a).avl_parent = parentOf fs none := parent a (top_branch _ _ _ _)
    refine ⟨nearest side fs, ?_, ?_⟩
    · rw [isParent]
      exact climbTo_spec side fs _ a _ _ (top_branch _ _ _ _) segment wf.nodup (by omega)
    · have empty : {b | b ∈ inorder near ∨ b ∈ beyond side fs} = {b | b ∈ beyond side fs} := by
        rw [top_eq_none.mp isNear]
        simp [inorder]
      rw [empty]
      exact closest_nearest side wf.sorted

/-! ## Neighbours of a key -/

/-- A routine that looks keys up leaves the same tree and a clue that is right. -/
structure Kept (t : LocalTree) (T : BinaryTree Addr) (t' : LocalTree) : Prop where
  wellFormed : t'.WellFormed T
  clue : t'.ClueOk T
  shape : SameShape t.heap t'.heap

theorem Kept.refl (wf : t.WellFormed T) (clueOk : t.ClueOk T) : Kept t T t :=
  ⟨wf, clueOk, .refl _⟩

theorem Kept.trans {t' t'' : LocalTree} (first : Kept t T t') (second : Kept t' T t'') :
    Kept t T t'' :=
  ⟨second.wellFormed, second.clue, first.shape.trans second.shape⟩

theorem Kept.rank {t' : LocalTree} (kept : Kept t T t') : t'.rank = t.rank :=
  funext kept.shape.subscript

/-- From the place of an absent key, the nodes past it are those outside on that side. -/
theorem past_place {fs : List (Frame Addr)} {key : LocalSubscript} (side : Side)
    (between : ∀ s, ∀ b ∈ beyond s fs, s.Past key (t.rank b)) (b : Addr) :
    b ∈ inorder (plug fs .nil) ∧ side.Past key (t.rank b) ↔ b ∈ beyond side fs := by
  constructor
  · rintro ⟨member, past⟩
    rcases mem_inorder_plug.mp member with inside | around
    · cases inside
    · by_contra outside
      have there : b ∈ beyond side.other fs := by
        cases side
        · exact around.resolve_left outside
        · exact around.resolve_right outside
      exact past.asymm (Side.past_other.mp (between side.other b there))
  · intro here
    refine ⟨mem_inorder_plug.mpr (.inr ?_), between side b here⟩
    cases side
    · exact .inl here
    · exact .inr here

/-- The node next to a key is the closest node past it. -/
theorem LocalTree.WellFormed.keyNeighbour (wf : t.WellFormed T) (clueOk : t.ClueOk T) (side : Side)
    {key : TreeKeySubscr} (valid : key.Valid) (inhabited : T ≠ .nil) :
    ∃ t' r, t.keyNeighbour side key = some (t', r) ∧ Kept t T t' ∧
      Closest side t.rank {b | b ∈ inorder T ∧ side.Past key.subscript (t.rank b)} r := by
  obtain ⟨t', node, parent, done, looked⟩ := lvAvlTreeLookup_spec valid wf clueOk none
  have kept : Kept t T t' := ⟨looked.wellFormed, looked.clue, looked.shape⟩
  simp only [LocalTree.keyNeighbour, done, Option.bind_eq_bind, Option.bind_some]
  rw [← kept.rank]
  rcases looked.outcome with ⟨n, rfl, same, leads⟩ | ⟨rfl, fs, rfl, isParent, followed, _, between⟩
  · obtain ⟨r, stepped, closest⟩ := looked.wellFormed.neighbour side leads.mem
    refine ⟨t', r, ?_, kept, ?_⟩
    · simp only [stepped, Option.map_some]
    · rw [← same]
      exact closest
  · cases fs with
    | nil => exact absurd rfl inhabited
    | cons f up =>
      have atParent : parent = some f.elem := isParent
      have dir : (t'.heap f.elem).descent_dir = f.side := followed f List.mem_cons_self
      have sorted : SortedBy t'.rank (plug (f :: up) .nil) := looked.wellFormed.sorted
      have closest := closest_nearest side sorted
      simp only [atParent, Option.bind_some, dir]
      simp only [past_place side between]
      rw [nearest_cons] at closest
      by_cases onSide : f.side = side
      · -- The key is past its parent, and nothing is between them.
        rw [if_pos onSide] at closest ⊢
        have inTree : f.elem ∈ inorder (plug (f :: up) .nil) :=
          mem_inorder_plug.mpr (.inr (frame_around List.mem_cons_self))
        obtain ⟨r, stepped, past⟩ := looked.wellFormed.neighbour side inTree
        refine ⟨t', r, by simp only [stepped, Option.map_some], kept, ?_⟩
        have position : plug (f :: up) .nil = plug up (branch side f.elem .nil f.sibling) := by
          rw [← onSide]
          rfl
        rw [position] at past
        simp only [past_position (position ▸ looked.wellFormed)] at past
        have same : {b | b ∈ inorder (.nil : BinaryTree Addr) ∨ b ∈ beyond side up} =
            {b | b ∈ beyond side (f :: up)} := by
          ext b
          have notOther : f.side ≠ side.other := onSide ▸ (Side.other_ne f.side).symm
          simp [mem_beyond_cons, notOther, inorder]
        rw [← same]
        exact past
      · rw [if_neg onSide] at closest ⊢
        exact ⟨t', some f.elem, rfl, kept, closest⟩

end Neighbours

end Ydb
