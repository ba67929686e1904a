import Ydb.LocalTreeRuns

/-!
# Lookup against plain search

An ordinary search starts at the root and follows the order of the subscripts down to
the key or to the place where it would be. A lookup that starts from a clue ends in
the same place, in every session.
-/

namespace Ydb

open Lib BinaryTree

/-- Where a search ends: the node with the key if there is one, and the nodes passed
with the direction taken at each, the last one first. -/
structure SearchEnd where
  node : Option Addr
  path : List (Addr × Side)
deriving DecidableEq

/-- The binary search for a key from a node on. -/
def plainSearch (h : Heap) (key : LocalSubscript) :
    Nat → Option Addr → List (Addr × Side) → Option SearchEnd
  | _, none, path => some ⟨none, path⟩
  | 0, some _, _ => none
  | rounds + 1, some a, path =>
    if key = (h a).subscript then some ⟨some a, path⟩
    else
      let dir : Side := if key < (h a).subscript then .left else .right
      plainSearch h key rounds ((h a).child dir) ((a, dir) :: path)

/-- The search in a whole tree. -/
def LocalTree.plainSearch (t : LocalTree) (key : LocalSubscript) : Option SearchEnd :=
  Ydb.plainSearch t.heap key t.lvt.avl_height t.lvt.avl_root []

/-- The nodes above a position with the directions that lead there. -/
def pathOf (fs : List (Frame Addr)) : List (Addr × Side) := fs.map fun f => (f.elem, f.side)

section Search

variable {h : Heap} {key : LocalSubscript}

/-- One step of the search past a node whose key lies on the other side. -/
theorem plainSearch_step {a : Addr} {dir : Side} {rounds : Nat} {path : List (Addr × Side)}
    (past : dir.Past (h a).subscript key) :
    plainSearch h key (rounds + 1) (some a) path =
      plainSearch h key rounds ((h a).child dir) ((a, dir) :: path) := by
  rw [plainSearch]
  cases dir with
  | left =>
    have less : key < (h a).subscript := past
    rw [if_neg (ne_of_lt less)]
    dsimp only
    rw [if_pos less]
  | right =>
    have more : (h a).subscript < key := past
    rw [if_neg (ne_of_gt more)]
    dsimp only
    rw [if_neg (lt_asymm more)]

/-- The search reaches every position towards which the key lies from all nodes above. -/
theorem plainSearch_segment {fs : List (Frame Addr)} {hole p whole : Option Addr} (rounds : Nat)
    (segment : Segment h fs hole p whole) (past : ∀ f ∈ fs, f.side.Past (h f.elem).subscript key) :
    plainSearch h key (rounds + fs.length) whole [] = plainSearch h key rounds hole (pathOf fs) := by
  induction fs generalizing hole rounds with
  | nil =>
    obtain rfl : whole = hole := segment
    rfl
  | cons f up ih =>
    obtain ⟨child, _, _, _, _, outer⟩ := segment
    have above := ih (rounds + 1) outer
      fun g member => past g (List.mem_cons_of_mem f member)
    rw [List.length_cons, Nat.add_comm up.length 1, ← Nat.add_assoc, above,
      plainSearch_step (past f List.mem_cons_self), child]
    rfl

/-- A frame is beyond the position on the side that it does not lie on. -/
theorem frame_beyond {fs : List (Frame Addr)} {f : Frame Addr} (member : f ∈ fs) :
    f.elem ∈ beyond f.side.other fs := by
  induction fs with
  | nil => cases member
  | cons g up ih =>
    rw [mem_beyond_cons]
    rcases List.mem_cons.mp member with rfl | above
    · right
      exact ⟨(Side.other_other f.side).symm, .inl rfl⟩
    · exact .inl (ih above)

theorem past_frames {fs : List (Frame Addr)}
    (between : ∀ s, ∀ b ∈ beyond s fs, s.Past key (h b).subscript) :
    ∀ f ∈ fs, f.side.Past (h f.elem).subscript key := by
  intro f member
  exact Side.past_other.mp (between f.side.other f.elem (frame_beyond member))

/-- The search in a tree goes through all frames above a position. -/
theorem LocalTree.WellFormed.plainSearch_position {t : LocalTree} {fs : List (Frame Addr)}
    {u : BinaryTree Addr} (wf : t.WellFormed (plug fs u))
    (between : ∀ s, ∀ b ∈ beyond s fs, s.Past key (t.heap b).subscript) :
    ∃ rounds, u.height ≤ rounds ∧
      t.plainSearch key = Ydb.plainSearch t.heap key rounds (top u) (pathOf fs) := by
  obtain ⟨segment, _, _⟩ := linked_plug.mp ⟨wf.root, wf.parentless, wf.linked⟩
  have room := length_le_height fs u
  refine ⟨(plug fs u).height - fs.length, by omega, ?_⟩
  rw [LocalTree.plainSearch, wf.height, ← plainSearch_segment _ segment (past_frames between),
    Nat.sub_add_cancel (by omega)]

/-- The search ends at the place of a key that is absent. -/
theorem LocalTree.WellFormed.plainSearch_absent {t : LocalTree} {fs : List (Frame Addr)}
    (wf : t.WellFormed (plug fs .nil))
    (between : ∀ s, ∀ b ∈ beyond s fs, s.Past key (t.heap b).subscript) :
    t.plainSearch key = some ⟨none, pathOf fs⟩ := by
  obtain ⟨rounds, _, same⟩ := wf.plainSearch_position between
  rw [same]
  cases rounds <;> rfl

/-- The search ends at the node with the key. -/
theorem LocalTree.WellFormed.plainSearch_present {t : LocalTree} {fs : List (Frame Addr)} {n : Addr}
    {l r : BinaryTree Addr} (wf : t.WellFormed (plug fs (.node n l r))) :
    t.plainSearch (t.heap n).subscript = some ⟨some n, pathOf fs⟩ := by
  have sorted : SortedBy (fun a => (t.heap a).subscript) (plug fs (branch .left n l r)) := wf.sorted
  obtain ⟨rounds, room, same⟩ := wf.plainSearch_position sorted.position.2.2
  rw [same]
  cases rounds with
  | zero => cases room
  | succ rounds => exact if_pos rfl

end Search

/-- In every session a lookup finds the node that a plain search from the root finds, or
else the parent at which that search ends; and the directions are set along the path
of that search. -/
theorem clue_lookup_is_plain_search {s : Session} (reachable : s.Reachable) {key : TreeKeySubscr}
    {lookupParent : Option Addr} (permitted : s.Permits (.lookup key lookupParent)) :
    ∃ t' node parent path, lvAvlTreeLookup s.tree key lookupParent = some (t', node, parent) ∧
      s.tree.plainSearch key.subscript = some ⟨node, path⟩ ∧
      (node = none → parent = path.head?.map Prod.fst) ∧
      ∀ step ∈ path, (t'.heap step.1).descent_dir = step.2 := by
  obtain ⟨T, valid⟩ := reachable.valid
  obtain ⟨keyValid, notPrepared⟩ := permitted
  obtain ⟨t', node, parent, done, looked⟩ :=
    lvAvlTreeLookup_spec keyValid valid.wellFormed (valid.clue notPrepared) lookupParent
  have directions : ∀ fs, Followed t'.heap fs →
      ∀ step ∈ pathOf fs, (t'.heap step.1).descent_dir = step.2 := by
    intro fs followed step member
    obtain ⟨f, inside, rfl⟩ := List.mem_map.mp member
    exact followed f inside
  rcases looked.outcome with ⟨n, rfl, same, fs, l, r, rfl, followed⟩ |
    ⟨rfl, fs, rfl, isParent, followed, _, between⟩
  · refine ⟨t', some n, parent, pathOf fs, done, ?_, nofun, directions fs followed⟩
    rw [← same, looked.shape.subscript]
    exact valid.wellFormed.plainSearch_present
  · refine ⟨t', none, parent, pathOf fs, done, ?_, ?_, directions fs followed⟩
    · apply valid.wellFormed.plainSearch_absent
      intro side b member
      rw [← looked.shape.subscript]
      exact between side b member
    · intro _
      rw [isParent]
      cases fs <;> rfl

/-- The key "ab" is looked up in the filled tree, where the clue is the node of "a" below
the root's left child: its key lies between those of the bounds, the nodes of 5 and "b". -/
theorem clue_lookup_is_plain_search_below_root :
    ∃ (s : Session) (key : TreeKeySubscr), s.tree.lvt.avl_root = some 2 ∧
      s.tree.lvt.lastLookup = ⟨some 5, some 4, some 1⟩ ∧
      ∃ t' node parent path, lvAvlTreeLookup s.tree key none = some (t', node, parent) ∧
        s.tree.plainSearch key.subscript = some ⟨node, path⟩ ∧
        (node = none → parent = path.head?.map Prod.fst) ∧
        ∀ step ∈ path, (t'.heap step.1).descent_dir = step.2 :=
  ⟨filledSession, stringKey [97, 98], by decide +kernel, by decide +kernel,
    clue_lookup_is_plain_search filledSession_reachable ⟨stringKey_valid _, nofun⟩⟩

end Ydb
