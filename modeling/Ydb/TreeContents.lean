import Ydb.TreeSearch
import Ydb.LeafRemoval

/-!
# The contents of a tree

A tree holds the nodes of its leaves. The key of a record of an index block is not below the keys of its child,
and below all keys behind; the star record has no key and its child holds the rest.
-/

namespace Ydb.GlobalTree

open Lib BlockUpdate

/-- The children of an index block with their nodes; `sub` says what a child holds. -/
inductive Parts (child : Nat → Nat) (sub : Nat → List Node → Prop) (last : Nat) : List BlockRec → List Node → Prop
  | star {nodes : List Node} (here : sub (child last) nodes) : Parts child sub last [] nodes
  | record {r : BlockRec} {recs : List BlockRec} {part rest : List Node} (here : sub (child r.offset) part)
      (upto : ∀ n ∈ part, ¬ r.key < n.key) (behind : ∀ n ∈ rest, r.key < n.key)
      (more : Parts child sub last recs rest) : Parts child sub last (r :: recs) (part ++ rest)

/-- An index block. -/
structure IndexBlock (db : Database) (blk nLevl : Nat) (recs : List BlockRec) (last : Nat) : Prop where
  block : WellFormedBlock db.blk_size (db.t_qread blk) recs last
  level : levl (db.t_qread blk) = nLevl + 1

/-- The nodes of the part of a tree from a block of a level on. No leaf of it is empty. -/
def Subtree (db : Database) : Nat → Nat → List Node → Prop
  | 0, blk, nodes => Leaf db.blk_size (db.t_qread blk) nodes ∧ nodes ≠ []
  | nLevl + 1, blk, nodes => ∃ recs last, IndexBlock db blk nLevl recs last ∧
      Parts (childAt (db.t_qread blk)) (Subtree db nLevl) last recs nodes

/-- A tree without nodes: a star record whose child is an empty leaf. -/
def EmptyTree (db : Database) (root : Nat) : Prop :=
  ∃ last, IndexBlock db root 0 [] last ∧ Leaf db.blk_size (db.t_qread (childAt (db.t_qread root) last)) []

/-- The tree of a global with the given nodes. -/
structure TreeHolds (db : Database) (root : Nat) (nodes : List Node) : Prop where
  index : levl (db.t_qread root) ≠ 0
  depth : levl (db.t_qread root) < MAX_BT_DEPTH
  contents : Subtree db (levl (db.t_qread root)) root nodes ∨ nodes = [] ∧ EmptyTree db root

/-! ## Records of index blocks -/

section Index

variable {buffaddr : ByteMemory} {level0 : Bool} {pTop rp last : Nat} {prev : List UInt8}
variable {recs before after : List BlockRec} {r : BlockRec} {db : Database} {blk nLevl : Nat}

theorem Records.begin (records : Records buffaddr level0 pTop prev rp recs last) :
    recs.head?.elim last BlockRec.offset = rp := by
  cases records with
  | top => rfl
  | star => rfl
  | record => rfl

/-- A record ends where the next one begins. -/
theorem Records.next (records : Records buffaddr level0 pTop prev rp (before ++ r :: after) last) :
    r.offset + rsiz buffaddr r.offset = after.head?.elim last BlockRec.offset ∧
      Records buffaddr level0 pTop r.key (r.offset + rsiz buffaddr r.offset) after last := by
  induction before generalizing prev rp with
  | nil =>
    cases records with
    | record _ _ _ _ _ _ more => exact ⟨(Records.begin more).symm, more⟩
  | cons x before ih =>
    cases records with
    | record _ _ _ _ _ _ more => exact ih more

theorem Records.star_at (records : Records buffaddr false pTop prev rp recs last) :
    rsiz buffaddr last = BSTAR_REC_SIZE ∧ last + BSTAR_REC_SIZE = pTop := by
  generalize index : false = level at records
  induction records with
  | top leaf =>
    rw [leaf] at index
    cases index
  | star _ size _ top => exact ⟨size, top⟩
  | record _ _ _ _ _ _ _ ih => exact ih

theorem Records.first_le (records : Records buffaddr level0 pTop prev rp recs last) :
    rp ≤ last ∧ ∀ r ∈ recs, rp ≤ r.offset ∧ r.offset + rsiz buffaddr r.offset ≤ last := by
  induction records with
  | top => exact ⟨Nat.le_refl _, fun r member => absurd member List.not_mem_nil⟩
  | star => exact ⟨Nat.le_refl _, fun r member => absurd member List.not_mem_nil⟩
  | record _ _ _ _ _ _ _ ih =>
    refine ⟨by omega, ?_⟩
    intro r member
    cases List.mem_cons.mp member with
    | inl same =>
      subst same
      exact ⟨Nat.le_refl _, ih.1⟩
    | inr behind =>
      have bounds := ih.2 r behind
      exact ⟨by omega, bounds.2⟩

theorem IndexBlock.records (index : IndexBlock db blk nLevl recs last) :
    Records (db.t_qread blk) false (bsiz (db.t_qread blk)) [] SIZEOF_blk_hdr recs last := by
  have records := index.block.records
  have notLeaf : decide (levl (db.t_qread blk) = 0) = false := by
    rw [index.level]
    exact decide_eq_false (Nat.succ_ne_zero nLevl)
  rw [notLeaf] at records
  exact records

theorem IndexBlock.small (index : IndexBlock db blk nLevl recs last) : bsiz (db.t_qread blk) < 2 ^ 16 := by
  have fits := index.block.fits
  have small := index.block.small
  unfold MAX_DB_BLK_SIZE at small
  omega

/-- The record at an offset: the star record or one with a key. -/
def RecordAt (recs : List BlockRec) (last offset : Nat) : Prop := offset = last ∨ ∃ r ∈ recs, offset = r.offset

theorem IndexBlock.inside {offset : Nat} (index : IndexBlock db blk nLevl recs last)
    (record : RecordAt recs last offset) : SIZEOF_blk_hdr ≤ offset ∧ offset < bsiz (db.t_qread blk) ∧
      offset + rsiz (db.t_qread blk) offset ≤ bsiz (db.t_qread blk) := by
  obtain ⟨star, top⟩ := Records.star_at index.records
  obtain ⟨first, bounds⟩ := Records.first_le index.records
  have positive : 0 < BSTAR_REC_SIZE := by decide
  cases record with
  | inl same =>
    subst same
    exact ⟨first, by omega, by omega⟩
  | inr found =>
    obtain ⟨r, member, rfl⟩ := found
    have here := bounds r member
    exact ⟨here.1, by omega, by omega⟩

end Index

/-! ## Nodes -/

section Nodes

variable {db : Database} {child : Nat → Nat} {sub : Nat → List Node → Prop} {last blk nLevl root : Nat}
variable {recs : List BlockRec} {nodes : List Node}

theorem Parts.nonempty (parts : Parts child sub last recs nodes) (some : ∀ blk nodes, sub blk nodes → nodes ≠ []) :
    nodes ≠ [] := by
  cases parts with
  | star here => exact some _ _ here
  | record here _ _ _ => exact List.append_ne_nil_of_left_ne_nil (some _ _ here) _

/-- No subtree is empty. -/
theorem Subtree.nonempty (subtree : Subtree db nLevl blk nodes) : nodes ≠ [] := by
  induction nLevl generalizing blk nodes with
  | zero => exact subtree.2
  | succ nLevl ih =>
    obtain ⟨recs, last, index, parts⟩ := subtree
    exact parts.nonempty fun blk nodes => ih

theorem Subtree.level (subtree : Subtree db nLevl blk nodes) : levl (db.t_qread blk) = nLevl := by
  cases nLevl with
  | zero => exact subtree.1.level
  | succ nLevl =>
    obtain ⟨recs, last, index, parts⟩ := subtree
    exact index.level

theorem Parts.sorted (parts : Parts child sub last recs nodes)
    (each : ∀ blk nodes, sub blk nodes → nodes.Pairwise fun a b => a.key < b.key) :
    nodes.Pairwise fun a b => a.key < b.key := by
  induction parts with
  | star here => exact each _ _ here
  | @record r recs part rest here upto behind more ih =>
    apply List.pairwise_append.mpr
    refine ⟨each _ _ here, ih, ?_⟩
    intro a first b second
    exact List.lt_of_le_of_lt (List.not_lt.mp (upto a first)) (behind b second)

/-- The keys of a tree increase. -/
theorem Subtree.sorted (subtree : Subtree db nLevl blk nodes) : nodes.Pairwise fun a b => a.key < b.key := by
  induction nLevl generalizing blk nodes with
  | zero => exact subtree.1.stored.sorted
  | succ nLevl ih =>
    obtain ⟨recs, last, index, parts⟩ := subtree
    exact parts.sorted fun blk nodes => ih

/-- The nodes of a tree are in order. -/
theorem TreeHolds.sorted (tree : TreeHolds db root nodes) : nodes.Pairwise fun a b => a.key < b.key := by
  cases tree.contents with
  | inl subtree => exact subtree.sorted
  | inr empty =>
    rw [empty.1]
    exact .nil

theorem Parts.grammar (parts : Parts child sub last recs nodes)
    (each : ∀ blk nodes, sub blk nodes → ∀ n ∈ nodes, WellFormedKey n.key) : ∀ n ∈ nodes, WellFormedKey n.key := by
  induction parts with
  | star here => exact each _ _ here
  | record here _ _ _ ih =>
    intro n member
    cases List.mem_append.mp member with
    | inl first => exact each _ _ here n first
    | inr later => exact ih n later

theorem Subtree.grammar (subtree : Subtree db nLevl blk nodes) : ∀ n ∈ nodes, WellFormedKey n.key := by
  induction nLevl generalizing blk nodes with
  | zero => exact fun n member => (subtree.1.stored.grammar n member).1
  | succ nLevl ih =>
    obtain ⟨recs, last, index, parts⟩ := subtree
    exact parts.grammar fun blk nodes => ih

/-- The keys of a tree are well formed. -/
theorem TreeHolds.grammar (tree : TreeHolds db root nodes) : ∀ n ∈ nodes, WellFormedKey n.key := by
  cases tree.contents with
  | inl subtree => exact subtree.grammar
  | inr empty =>
    rw [empty.1]
    exact fun n member => absurd member List.not_mem_nil

end Nodes

/-! ## A small tree -/

/-- A leaf with `^a("x")`, behind the small leaf. -/
def otherLeaf : ByteMemory := fun a =>
  [0, 0, 0, 0, 27, 0, 0, 0, 0, 0, 0, 0, 0, 0, 0, 0,
    11, 0, 0, 0, 0x61, 0, 0xff, 0x78, 0, 0, 6].getD a 0

/-- An index block with a record of the small leaf, which is block 2, and a star record of block 3. -/
def smallRoot : ByteMemory := fun a =>
  [0, 0, 0, 1, 38, 0, 0, 0, 0, 0, 0, 0, 0, 0, 0, 0,
    14, 0, 0, 0, 0x61, 0, 0xbf, 0x11, 0, 0, 2, 0, 0, 0,
    8, 0, 0, 0, 3, 0, 0, 0].getD a 0

/-- A root and two leaves. -/
def smallDatabase : Database := ⟨512, fun blk => if blk = 1 then smallRoot else if blk = 2 then smallLeaf else otherLeaf⟩

/-- The nodes of the second leaf. -/
def otherNodes : List Node := [⟨[0x61, 0, 0xff, 0x78, 0, 0], [6]⟩]

theorem otherLeaf_holds : Leaf 512 otherLeaf otherNodes := by
  have grammar : WellFormedKey [0x61, 0, 0xff, 0x78, 0, 0] :=
    ⟨by decide, [0x61, 0, 0xff, 0x78], rfl, by simp [NotBothDelimiters, KEY_DELIMITER]⟩
  refine leaf_iff.mpr ⟨[⟨16, [0x61, 0, 0xff, 0x78, 0, 0]⟩], ⟨by decide, by decide, ?_⟩, by decide, by decide⟩
  refine .record grammar (by decide) (by decide) (by decide) (by decide) (by decide) ?_
  exact .top (by decide)

/-- The small tree holds the nodes of both leaves. -/
theorem smallDatabase_holds : TreeHolds smallDatabase 1 (smallNodes ++ otherNodes) := by
  refine ⟨by decide, by decide, .inl ?_⟩
  have level : levl (smallDatabase.t_qread 1) = 1 := by decide
  rw [level]
  refine ⟨[⟨16, [0x61, 0, 0xbf, 0x11, 0, 0]⟩], 30, ⟨⟨by decide, by decide, ?_⟩, by decide⟩, ?_⟩
  · refine .record smallNodes_grammar.2 (by decide) (by decide) (by decide) (by decide) (by decide) ?_
    exact .star (by decide) (by decide) (by decide) (by decide)
  · have first : childAt (smallDatabase.t_qread 1) 16 = 2 := by decide
    have second : childAt (smallDatabase.t_qread 1) 30 = 3 := by decide
    refine @Parts.record _ _ _ _ [] smallNodes otherNodes ?_ (by decide) (by decide) (.star ?_)
    · exact ⟨first ▸ smallLeaf_holds, by decide⟩
    · exact ⟨second ▸ otherLeaf_holds, by decide⟩

end Ydb.GlobalTree
