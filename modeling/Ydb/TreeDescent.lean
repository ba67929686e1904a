import Ydb.TreeContents

/-!
# The descent to a leaf

A search in a tree ends in the one leaf that may hold the key: the nodes of all leaves in front of it are below
the key, and those of all leaves behind it above.
-/

namespace Ydb.GlobalTree

open Lib BlockUpdate

variable {db : Database} {t : List UInt8} {child : Nat → Nat} {sub : Nat → List Node → Prop} {last blk nLevl root : Nat}
variable {recs before after : List BlockRec} {nodes : List Node} {gv_altkey pKey : KeyBuffer}

/-! ## Children beside the one of a search -/

/-- What the records in front of the one of a search hold. -/
def LeftOf (child : Nat → Nat) (sub : Nat → List Node → Prop) (before : List BlockRec) (nodes : List Node) : Prop :=
  before = [] ∧ nodes = [] ∨
    ∃ init r earlier part, before = init ++ [r] ∧ nodes = earlier ++ part ∧ sub (child r.offset) part

/-- What the records behind the first one hold. -/
def RightOf (child : Nat → Nat) (sub : Nat → List Node → Prop) (last : Nat) : List BlockRec → List Node → Prop
  | [], nodes => nodes = []
  | _ :: recs, nodes => Parts child sub last recs nodes

/-- The child of the record in front of which the records are below a key. -/
structure Selected (child : Nat → Nat) (sub : Nat → List Node → Prop) (last : Nat) (t : List UInt8)
    (before after : List BlockRec) (front part back : List Node) : Prop where
  here : sub (child (after.head?.elim last BlockRec.offset)) part
  left : LeftOf child sub before front
  right : RightOf child sub last after back
  less : ∀ n ∈ front, n.key < t
  greater : ∀ n ∈ back, t < n.key

/-- The child that may hold the key. -/
theorem Parts.select (parts : Parts child sub last (before ++ after) nodes) (less : ∀ r ∈ before, r.key < t)
    (notLess : ∀ r ∈ after.head?, ¬ r.key < t) :
    ∃ front part back, nodes = front ++ part ++ back ∧ Selected child sub last t before after front part back := by
  induction before generalizing nodes with
  | nil =>
    rw [List.nil_append] at parts
    cases parts with
    | star here => exact ⟨[], nodes, [], by simp, here, .inl ⟨rfl, rfl⟩, rfl, by simp, by simp⟩
    | @record r recs part rest here upto behind more =>
      refine ⟨[], part, rest, rfl, here, .inl ⟨rfl, rfl⟩, more, by simp, ?_⟩
      intro n member
      exact List.lt_of_le_of_lt (List.not_lt.mp (notLess r rfl)) (behind n member)
  | cons r before ih =>
    rw [List.cons_append] at parts
    cases parts with
    | @record _ _ part rest here upto behind more =>
      obtain ⟨front, chosen, back, rfl, selected⟩ :=
        ih more fun x member => less x (List.mem_cons_of_mem _ member)
      refine ⟨part ++ front, chosen, back, by simp only [List.append_assoc], selected.here, ?_, selected.right, ?_,
        selected.greater⟩
      · cases selected.left with
        | inl none =>
          obtain ⟨rfl, rfl⟩ := none
          exact .inr ⟨[], r, [], part, rfl, by simp, here⟩
        | inr some =>
          obtain ⟨init, x, earlier, last, rfl, rfl, held⟩ := some
          exact .inr ⟨r :: init, x, part ++ earlier, last, rfl, by simp only [List.append_assoc], held⟩
      · intro n member
        cases List.mem_append.mp member with
        | inl first =>
          exact List.lt_of_le_of_lt (List.not_lt.mp (upto n first)) (less r List.mem_cons_self)
        | inr later => exact selected.less n later

/-! ## Searching an index block -/

/-- The search of an index block takes the first record that is not below the key. -/
theorem searchBlk_index (index : IndexBlock db blk nLevl recs last) (target : WellFormedTarget pKey)
    (room : MAX_KEY_SZ ≤ gv_altkey.top) (expand_prev_key : Bool) :
    ∃ altkey, searchBlk db expand_prev_key gv_altkey pKey blk = .ok (searched pKey.bytes last ⟨0, 0⟩ recs, altkey) := by
  obtain ⟨altkey, result, _⟩ := @gvcst_search_blk_eq _ expand_prev_key gv_altkey pKey _ _ _ index.block target room
  refine ⟨altkey, ?_⟩
  unfold searchBlk
  rw [result]

theorem searched_offset : (searched t last ⟨0, 0⟩ recs).curr_rec.offset =
    (recordsFrom t recs).head?.elim last BlockRec.offset := by
  unfold searched
  exact status_offset

theorem recordAt_head (t : List UInt8) (recs : List BlockRec) (last : Nat) :
    RecordAt recs last ((recordsFrom t recs).head?.elim last BlockRec.offset) := by
  cases found : (recordsFrom t recs).head? with
  | none => exact .inl rfl
  | some r => exact .inr ⟨r, (List.dropWhile_sublist _).subset (List.mem_of_head? found), rfl⟩

/-! ## Paths -/

/-- The history of a search, with the nodes of the leaves in front, those of the leaf below the key and not below
it, and the nodes of the leaves behind. -/
inductive Path (db : Database) (t : List UInt8) :
    Nat → Nat → List HistBlock → List Node → List Node → List Node → List Node → Prop
  | leaf {blk : Nat} {status : SrchBlkStatus} {below above : List Node}
      (leaf : Leaf db.blk_size (db.t_qread blk) (below ++ above))
      (found : SearchedLeaf (db.t_qread blk) t status below above) :
      Path db t 0 blk [⟨blk, status⟩] [] below above []
  | index {nLevl blk : Nat} {recs : List BlockRec} {last : Nat} {status : SrchBlkStatus} {hist : List HistBlock}
      {front left below above right back : List Node} (index : IndexBlock db blk nLevl recs last)
      (path : Path db t nLevl (childAt (db.t_qread blk) ((recordsFrom t recs).head?.elim last BlockRec.offset)) hist
        left below above right)
      (lefts : LeftOf (childAt (db.t_qread blk)) (Subtree db nLevl) (recordsBelow t recs) front)
      (rights : RightOf (childAt (db.t_qread blk)) (Subtree db nLevl) last (recordsFrom t recs) back) :
      Path db t (nLevl + 1) blk (hist ++ [⟨blk, status⟩]) (front ++ left) below above (right ++ back)

/-- Where a search ends among the nodes. -/
structure Around (nodes : List Node) (t : List UInt8) (left below above right : List Node) : Prop where
  nodes : nodes = left ++ (below ++ above) ++ right
  less : ∀ n ∈ left ++ below, n.key < t
  notLess : ∀ n ∈ above, ¬ n.key < t
  greater : ∀ n ∈ right, t < n.key

/-- A turn of the descent. -/
theorem searchFrom_index (index : IndexBlock db blk nLevl recs last) (target : WellFormedTarget pKey)
    (room : MAX_KEY_SZ ≤ gv_altkey.top) (expand_prev_key : Bool) {hist : List HistBlock} {altkey : KeyBuffer}
    (level : levl (db.t_qread (childAt (db.t_qread blk)
      ((recordsFrom pKey.bytes recs).head?.elim last BlockRec.offset))) = nLevl)
    (child : searchFrom db false expand_prev_key gv_altkey pKey nLevl (childAt (db.t_qread blk)
      ((recordsFrom pKey.bytes recs).head?.elim last BlockRec.offset)) = .ok (hist, altkey)) :
    searchFrom db false expand_prev_key gv_altkey pKey (nLevl + 1) blk =
      .ok (hist ++ [⟨blk, searched pKey.bytes last ⟨0, 0⟩ recs⟩], altkey) := by
  obtain ⟨_, result⟩ := @searchBlk_index db last blk nLevl recs gv_altkey pKey index target room false
  obtain ⟨_, inside, upto⟩ := index.inside (recordAt_head pKey.bytes recs last)
  rw [searchFrom]
  unfold indexStatus
  rw [if_neg Bool.false_ne_true, result]
  dsimp only [Except.map]
  rw [searched_offset, if_neg (Nat.not_le.mpr inside), if_neg (Nat.not_lt.mpr upto), if_neg (fun other => other level),
    child]

theorem searchBlk_leaf (leaf : Leaf db.blk_size (db.t_qread blk) nodes) (target : WellFormedTarget pKey)
    (room : MAX_KEY_SZ ≤ gv_altkey.top) (expand_prev_key : Bool) :
    ∃ status altkey below above, searchBlk db expand_prev_key gv_altkey pKey blk = .ok (status, altkey) ∧
      nodes = below ++ above ∧ SearchedLeaf (db.t_qread blk) pKey.bytes status below above := by
  obtain ⟨status, altkey, below, above, result, same, found⟩ :=
    @gvcst_search_blk_leaf db.blk_size _ _ gv_altkey pKey leaf target room expand_prev_key
  refine ⟨status, altkey, below, above, ?_, same, found⟩
  unfold searchBlk
  rw [result]

/-- The path of a search. -/
theorem searchFrom_path (subtree : Subtree db nLevl blk nodes) (target : WellFormedTarget pKey)
    (room : MAX_KEY_SZ ≤ gv_altkey.top) (expand_prev_key : Bool) :
    ∃ hist altkey left below above right,
      searchFrom db false expand_prev_key gv_altkey pKey nLevl blk = .ok (hist, altkey) ∧
      Path db pKey.bytes nLevl blk hist left below above right ∧
      Around nodes pKey.bytes left below above right := by
  induction nLevl generalizing blk nodes with
  | zero =>
    obtain ⟨status, altkey, below, above, result, same, found⟩ :=
      @searchBlk_leaf db blk nodes gv_altkey pKey subtree.1 target room expand_prev_key
    refine ⟨[⟨blk, status⟩], altkey, [], below, above, [], ?_, .leaf (same ▸ subtree.1) found, ?_, found.less,
      found.notLess, by simp⟩
    · rw [searchFrom, result]
    · rw [List.nil_append, List.append_nil, same]
  | succ nLevl ih =>
    obtain ⟨recs, last, index, parts⟩ := subtree
    rw [recordsBelow_append_recordsFrom pKey.bytes recs] at parts
    obtain ⟨front, part, back, rfl, selected⟩ := parts.select lt_of_mem_recordsBelow head_recordsFrom
    obtain ⟨hist, altkey, left, below, above, right, result, path, around⟩ := ih selected.here
    refine ⟨_, altkey, front ++ left, below, above, right ++ back,
      searchFrom_index index target room expand_prev_key selected.here.level result,
      .index index path selected.left selected.right, ?_, ?_, around.notLess, ?_⟩
    · rw [around.nodes]
      simp only [List.append_assoc]
    · intro n member
      rw [List.append_assoc] at member
      cases List.mem_append.mp member with
      | inl first => exact selected.less n first
      | inr later => exact around.less n later
    · intro n member
      cases List.mem_append.mp member with
      | inl first => exact around.greater n first
      | inr later => exact selected.greater n later

/-- A search in a tree. -/
theorem gvcst_search_path (tree : TreeHolds db root nodes) (target : WellFormedTarget pKey)
    (room : MAX_KEY_SZ ≤ gv_altkey.top) (expand_prev_key : Bool) :
    ∃ hist altkey left below above right,
      gvcst_search db false expand_prev_key gv_altkey pKey root = .ok (hist, altkey) ∧
      Path db pKey.bytes (levl (db.t_qread root)) root hist left below above right ∧
      Around nodes pKey.bytes left below above right := by
  have depth := tree.depth
  unfold gvcst_search
  dsimp only
  rw [if_neg (by omega), if_neg tree.index]
  cases tree.contents with
  | inl subtree => exact searchFrom_path subtree target room expand_prev_key
  | inr empty =>
    obtain ⟨rfl, last, index, leaf⟩ := empty
    obtain ⟨status, altkey, below, above, result, same, found⟩ :=
      @searchBlk_leaf db _ [] gv_altkey pKey leaf target room expand_prev_key
    obtain ⟨rfl, rfl⟩ := List.append_eq_nil_iff.mp same.symm
    have one : levl (db.t_qread root) = 0 + 1 := index.level
    rw [one]
    have down : searchFrom db false expand_prev_key gv_altkey pKey 0 (childAt (db.t_qread root)
        ((recordsFrom pKey.bytes []).head?.elim last BlockRec.offset)) =
        .ok ([⟨childAt (db.t_qread root) last, status⟩], altkey) := by
      rw [searchFrom]
      have star : (recordsFrom pKey.bytes []).head?.elim last BlockRec.offset = last := rfl
      rw [star, result]
    refine ⟨_, altkey, [] ++ [], [], [], [] ++ [], searchFrom_index index target room expand_prev_key leaf.level down,
      .index index (.leaf leaf found) (.inl ⟨rfl, rfl⟩) rfl, rfl, by simp, by simp, by simp⟩

end Ydb.GlobalTree
