import Ydb.TreeLoops

/-!
# The previous subscript

A search that expands the previous key leaves in `gv_altkey` the last key of the leaf below the one of the search,
built from the bytes that the records do not share. `gvcst_zprevious2` takes it from the left sibling when the leaf
has none, and cuts it behind its subscript at the level of the search.
-/

namespace Ydb.GlobalTree

open Lib BlockUpdate

variable {db : Database} {t : List UInt8} {blk nLevl root : Nat}
variable {nodes left below above right : List Node} {node : Node} {gv_altkey gv_currkey pKey altkey : KeyBuffer}
variable {buffaddr : ByteMemory} {status : SrchBlkStatus} {hist : List HistBlock}

/-! ## Expanding the key of a leaf -/

section Block

variable {target : ByteMemory} {pTop turns : Nat} {v v' : SearchVars} {p q : PrevKeyVars} {p' : Option PrevKeyVars}

theorem turn_keeps (turned : p.turn buffaddr v = .ok q) :
    q.altkey.top = p.altkey.top ∧ (v.pRecBase = 0 → q.prevKeyUnCmp = p.prevKeyUnCmp) := by
  unfold PrevKeyVars.turn at turned
  split at turned
  · cases turned
    exact ⟨rfl, fun _ => rfl⟩
  · rename_i inside
    dsimp only at turned
    split at turned
    · split at turned
      · cases turned
      · split at turned
        · cases turned
        · cases turned
          exact ⟨rfl, fun first => absurd first inside⟩
    · cases turned
      exact ⟨rfl, fun first => absurd first inside⟩

/-- A turn of the search of a leaf leaves the record of the last turn behind. -/
theorem searchTurn_prev {turn : SearchTurn} (turned : searchTurn target buffaddr pTop true v = .ok turn) :
    (∃ v', turn = .found v' ∧ v'.pPrevRec = v.pRecBase) ∨
      ∃ v', turn = .next v' ∧ v'.pRecBase = v.pRecBase + v.nRecLen ∧ v.pRecBase + v.nRecLen < pTop := by
  unfold searchTurn at turned
  dsimp only at turned
  split at turned
  · split at turned
    · cases turned
    · rw [if_neg (by decide)] at turned
      cases turned
      exact .inl ⟨_, rfl, rfl⟩
  · rename_i inside
    split at turned
    · cases turned
    · split at turned
      · cases turned
        exact .inr ⟨_, rfl, rfl, Nat.lt_of_not_le inside⟩
      · split at turned
        · cases turned
          exact .inl ⟨_, rfl, rfl⟩
        · unfold compareRecord at turned
          dsimp only at turned
          split at turned
          · cases turned
            exact .inr ⟨_, rfl, rfl, Nat.lt_of_not_le inside⟩
          · cases turned
            exact .inl ⟨_, rfl, rfl⟩

/-- As long as no record is passed, no key is begun. -/
theorem searchLoop_prev (found : searchLoop target buffaddr pTop true turns v (some p) = .ok (v', p'))
    (start : v.pRecBase = 0 → p.prevKeyUnCmp = none) (moves : 0 < v.pRecBase + v.nRecLen) (bound : v.pRecBase ≤ pTop) :
    ∃ q, p' = some q ∧ q.altkey.top = p.altkey.top ∧ (v'.pPrevRec = 0 → q.prevKeyUnCmp = none) ∧
      v'.pPrevRec ≤ pTop := by
  induction turns generalizing v p with
  | zero => cases found
  | succ turns ih =>
    cases turned : p.turn buffaddr v with
    | error status =>
      have expanded : (some p).mapM (fun q => q.turn buffaddr v) = .error status := by
        change (p.turn buffaddr v).bind _ = _
        rw [turned]
        rfl
      rw [searchLoop, expanded] at found
      cases found
    | ok q =>
      obtain ⟨top, kept⟩ := turn_keeps turned
      have expanded : (some p).mapM (fun q => q.turn buffaddr v) = .ok (some q) := by
        change (p.turn buffaddr v).bind _ = _
        rw [turned]
        rfl
      cases result : searchTurn target buffaddr pTop true v with
      | error status =>
        rw [searchLoop, expanded] at found
        change (searchTurn target buffaddr pTop true v).bind _ = _ at found
        rw [result] at found
        cases found
      | ok turn =>
        cases searchTurn_prev result with
        | inl stops =>
          obtain ⟨w, rfl, prev⟩ := stops
          rw [searchLoop_found expanded result] at found
          cases found
          refine ⟨q, rfl, top, ?_, prev ▸ bound⟩
          intro zero
          have first : v.pRecBase = 0 := prev.symm.trans zero
          exact (kept first).trans (start first)
        | inr goes =>
          obtain ⟨w, rfl, place, inside⟩ := goes
          rw [searchLoop_next expanded result] at found
          obtain ⟨r, same, keeps, unset, small⟩ := ih found
            (fun zero => by omega) (by omega) (by omega)
          exact ⟨r, same, keeps.trans top, unset, small⟩

theorem complete_keeps (completed : p.complete pTop = .ok altkey) :
    altkey.top = p.altkey.top ∧ (p.prevKeyUnCmp = none → altkey.end_ = 0) := by
  unfold PrevKeyVars.complete at completed
  split at completed
  · cases completed
    exact ⟨rfl, fun _ => rfl⟩
  · rename_i source addr some
    split at completed
    · cases completed
    · dsimp only at completed
      split at completed
      · cases completed
      · cases completed
        refine ⟨rfl, ?_⟩
        intro none
        rw [some] at none
        cases none

end Block

/-- What a search that expands the previous key leaves in `gv_altkey`. -/
structure PreviousKey (gv_altkey altkey : KeyBuffer) (below : List Node) : Prop where
  top : altkey.top = gv_altkey.top
  first : below = [] → altkey.end_ = 0
  key : ∀ n ∈ below.getLast?, altkey.bytes = n.key

/-- The nodes of a leaf below a key are those of the records below it. -/
theorem recordsBelow_nodes {recs : List BlockRec} (same : recs.map (nodeOf buffaddr) = below ++ above)
    (less : ∀ n ∈ below, n.key < t) (notLess : ∀ n ∈ above, ¬ n.key < t) :
    (recordsBelow t recs).map (nodeOf buffaddr) = below := by
  have front : (recs.map (nodeOf buffaddr)).takeWhile (fun n => n.key < t) = below := by
    rw [same, List.takeWhile_append_of_pos (fun n member => decide_eq_true (less n member))]
    cases above with
    | nil => exact List.append_nil below
    | cons n above =>
      rw [List.takeWhile_cons_of_neg (by simpa using notLess n List.mem_cons_self), List.append_nil]
  rw [← front, List.takeWhile_map]
  rfl

/-- A search that expands the key in front. -/
theorem searchBlk_expands (leaf : Leaf db.blk_size (db.t_qread blk) (below ++ above)) (target : WellFormedTarget pKey)
    (room : MAX_KEY_SZ ≤ gv_altkey.top) (result : searchBlk db true gv_altkey pKey blk = .ok (status, altkey))
    (found : SearchedLeaf (db.t_qread blk) pKey.bytes status below above) : PreviousKey gv_altkey altkey below := by
  obtain ⟨recs, block, level, same⟩ := leaf_iff.mp leaf
  have fits := block.fits
  have small := block.small
  unfold MAX_DB_BLK_SIZE at small
  obtain ⟨altkey', searched, expanded⟩ := @gvcst_search_blk_eq db.blk_size true gv_altkey pKey (db.t_qread blk) recs _
    block target room
  have before := recordsBelow_nodes same found.less found.notLess
  unfold searchBlk at result
  cases search : gvcst_search_blk db.blk_size true gv_altkey pKey (db.t_qread blk) with
  | error status =>
    rw [search] at result
    cases result
  | ok pair =>
    rw [search] at result searched
    cases result
    obtain rfl : altkey = altkey' := (Prod.mk.inj (Except.ok.inj searched)).2
    have key : ∀ n ∈ below.getLast?, altkey.bytes = n.key := by
      intro n last
      rw [← before, List.getLast?_map] at last
      cases found : (recordsBelow pKey.bytes recs).getLast? with
      | none =>
        rw [found] at last
        cases last
      | some r =>
        rw [found] at last
        obtain rfl := Option.some.inj last
        exact expanded level rfl r found
    -- the rest is what the loop keeps
    unfold gvcst_search_blk at search
    dsimp only at search
    rw [level, if_pos ⟨rfl, rfl⟩, Nat.min_eq_left fits] at search
    have leafLevel : decide (0 = 0) = true := rfl
    rw [leafLevel] at search
    cases loop : searchLoop pKey.base (db.t_qread blk) (bsiz (db.t_qread blk)) true (bsiz (db.t_qread blk) + 1)
        (.start pKey) (some ⟨gv_altkey, 0, none, false⟩) with
    | error status =>
      rw [loop] at search
      cases search
    | ok pair =>
      obtain ⟨v, p'⟩ := pair
      rw [loop] at search
      have header : 0 < SIZEOF_blk_hdr := by decide
      obtain ⟨q, rfl, top, unset, bound⟩ := searchLoop_prev loop (fun _ => rfl) header (Nat.zero_le _)
      change ((q.complete (bsiz (db.t_qread blk))).bind fun altkey => .ok (v.status, altkey)) = _ at search
      cases completed : q.complete (bsiz (db.t_qread blk)) with
      | error status =>
        rw [completed] at search
        cases search
      | ok key' =>
        rw [completed] at search
        cases search
        obtain ⟨keeps, ends⟩ := complete_keeps completed
        refine ⟨keeps.trans top, ?_, key⟩
        intro empty
        cases found.prevRec with
        | inl none =>
          have zero : v.pPrevRec % 2 ^ 16 = 0 := none.2
          rw [Nat.mod_eq_of_lt (by omega)] at zero
          exact ends (unset zero)
        | inr some => exact absurd empty some.1

/-! ## The descent -/

theorem leafOf_append {entry : HistBlock} (some : hist ≠ []) : leafOf (hist ++ [entry]) = leafOf hist := by
  cases hist with
  | nil => exact absurd rfl some
  | cons first hist => rfl

/-- The key in `gv_altkey` comes from the leaf. -/
theorem searchFrom_leaf {skip_search_blk expand_prev_key : Bool}
    (result : searchFrom db skip_search_blk expand_prev_key gv_altkey pKey nLevl blk = .ok (hist, altkey)) :
    hist ≠ [] ∧
      searchBlk db expand_prev_key gv_altkey pKey (leafOf hist).blk_num = .ok ((leafOf hist).status, altkey) := by
  induction nLevl generalizing blk hist altkey with
  | zero =>
    rw [searchFrom] at result
    cases search : searchBlk db expand_prev_key gv_altkey pKey blk with
    | error status =>
      rw [search] at result
      cases result
    | ok pair =>
      rw [search] at result
      cases result
      exact ⟨List.cons_ne_nil _ _, search⟩
  | succ nLevl ih =>
    rw [searchFrom] at result
    dsimp only at result
    split at result
    · cases result
    · split at result
      · cases result
      · split at result
        · cases result
        · split at result
          · cases result
          · split at result
            · cases result
            · rename_i below altkey' child
              cases result
              obtain ⟨some, leaf⟩ := ih child
              refine ⟨List.append_ne_nil_of_left_ne_nil some _, ?_⟩
              rw [leafOf_append some]
              exact leaf

theorem gvcst_search_leaf {skip_search_blk expand_prev_key : Bool}
    (result : gvcst_search db skip_search_blk expand_prev_key gv_altkey pKey root = .ok (hist, altkey)) :
    searchBlk db expand_prev_key gv_altkey pKey (leafOf hist).blk_num = .ok ((leafOf hist).status, altkey) := by
  unfold gvcst_search at result
  dsimp only at result
  split at result
  · cases result
  · split at result
    · cases result
    · exact (searchFrom_leaf result).2

/-! ## The last node below a key -/

/-- The last node below the key. -/
def lastBelow (t : List UInt8) (nodes : List Node) : Option Node := (nodes.filter fun n => n.key < t).getLast?

theorem Around.lastBelow (around : Around nodes t left below above right) :
    lastBelow t nodes = (left ++ below).getLast? := by
  have front : ((left ++ below).filter fun n => n.key < t) = left ++ below :=
    List.filter_eq_self.mpr fun n member => decide_eq_true (around.less n member)
  have back : ((above ++ right).filter fun n => n.key < t) = [] := by
    apply List.filter_eq_nil_iff.mpr
    intro n member
    cases List.mem_append.mp member with
    | inl here => simpa using around.notLess n here
    | inr later => simpa using List.le_of_lt (around.greater n later)
  have whole : nodes = (left ++ below) ++ (above ++ right) := by
    rw [around.nodes]
    simp only [List.append_assoc]
  unfold GlobalTree.lastBelow
  rw [whole, List.filter_append, front, back, List.append_nil]

theorem lastNode_some (last : below.getLast? = some node) : lastNode [] below = node.key := by
  unfold lastNode
  rw [last]
  rfl

/-- $ZPREVIOUS takes the last node below the key. -/
theorem gvcst_zprevious2_last (tree : TreeHolds db root nodes) (target : WellFormedTarget gv_currkey)
    (room : MAX_KEY_SZ ≤ gv_altkey.top) :
    lastBelow gv_currkey.bytes nodes = none ∧
        (∃ altkey, gvcst_zprevious2 db false gv_altkey gv_currkey root = .ok (false, altkey)) ∨
      ∃ node altkey, lastBelow gv_currkey.bytes nodes = some node ∧ altkey.bytes = node.key ∧
        altkey.top = gv_altkey.top ∧ gvcst_zprevious2 db false gv_altkey gv_currkey root =
          truncatePrev gv_currkey true altkey (commonPrefix gv_currkey.bytes node.key) := by
  obtain ⟨hist, altkey, left, below, above, right, result, path, around⟩ := gvcst_search_path tree target room true
  obtain ⟨leaf, found⟩ := path.leaf_found
  have previous := searchBlk_expands leaf target room (gvcst_search_leaf result) found
  rw [around.lastBelow]
  unfold gvcst_zprevious2
  rw [result]
  dsimp only
  cases last : below.getLast? with
  | some node =>
    have some : below ≠ [] := fun empty => by
      rw [empty] at last
      cases last
    have offset : (leafOf hist).status.prev_rec.offset ≠ 0 := by
      cases found.prevRec with
      | inl none => exact absurd none.1 some
      | inr record =>
        have first := record.2.1
        unfold SIZEOF_blk_hdr at first
        omega
    have match_ : (leafOf hist).status.prev_rec.match_ = commonPrefix gv_currkey.bytes node.key := by
      rw [found.prev, lastNode_some last]
    rw [if_neg offset, match_]
    refine .inr ⟨node, altkey, ?_, previous.key node last, previous.top, rfl⟩
    rw [List.getLast?_append_of_ne_nil _ some, last]
  | none =>
    obtain rfl := List.getLast?_eq_none_iff.mp last
    have offset : (leafOf hist).status.prev_rec.offset = 0 := by
      cases found.prevRec with
      | inl none => exact none.2
      | inr record => exact absurd rfl record.1
    have room' : MAX_KEY_SZ ≤ altkey.top := previous.top ▸ room
    rw [if_pos offset, List.append_nil]
    cases gvcst_lftsib_path path target room' with
    | inl ends =>
      have short := target.wellFormed.length_ge
      have width := gv_currkey.length_bytes
      rw [ends.2]
      refine .inl ⟨by rw [ends.1]; rfl, altkey, ?_⟩
      dsimp only
      unfold truncatePrev
      rw [previous.first rfl, if_pos (.inl ⟨by omega, Nat.zero_le _⟩)]
    | inr sibling =>
      obtain ⟨blk, more, earlier, nodes', sibling, held, some, rfl⟩ := sibling
      obtain ⟨status, altkey', below', above', searched, same, found'⟩ :=
        @searchBlk_leaf db blk nodes' altkey gv_currkey held target room' true
      have none : above' = [] := by
        cases above' with
        | nil => rfl
        | cons n above' =>
          have member : n ∈ earlier ++ nodes' ++ [] := by
            rw [same]
            simp
          exact absurd (around.less n member) (found'.notLess n List.mem_cons_self)
      subst none
      obtain ⟨node, last'⟩ : ∃ node, below'.getLast? = .some node := by
        rw [same, List.append_nil] at some
        exact Option.ne_none_iff_exists'.mp fun none => some (List.getLast?_eq_none_iff.mp none)
      rw [same, List.append_nil]
      have previous' := searchBlk_expands (same ▸ held) target room' searched found'
      have match_ : status.prev_rec.match_ = commonPrefix gv_currkey.bytes node.key := by
        rw [found'.prev, lastNode_some last']
      rw [sibling]
      dsimp only
      have first : (blk :: more).headD 0 = blk := rfl
      rw [first, searched]
      dsimp only
      rw [match_]
      refine .inr ⟨node, altkey', ?_, previous'.key node last', previous'.top.trans previous.top, rfl⟩
      rw [List.getLast?_append_of_ne_nil _ (fun empty => by rw [empty] at last'; cases last'), last']

/-! ## The search that takes the star records -/

/-- The searches with and without the records of the index blocks go through the same blocks. -/
def SkipAgrees (db : Database) (expand_prev_key : Bool) (gv_altkey pKey : KeyBuffer) (nLevl blk : Nat) : Prop :=
  ∃ hist hist' altkey, searchFrom db false expand_prev_key gv_altkey pKey nLevl blk = .ok (hist, altkey) ∧
    searchFrom db true expand_prev_key gv_altkey pKey nLevl blk = .ok (hist', altkey) ∧
    hist'.map HistBlock.blk_num = hist.map HistBlock.blk_num ∧ leafOf hist' = leafOf hist

theorem skipAgrees_leaf (leaf : Leaf db.blk_size (db.t_qread blk) nodes) (target : WellFormedTarget pKey)
    (room : MAX_KEY_SZ ≤ gv_altkey.top) (expand_prev_key : Bool) : SkipAgrees db expand_prev_key gv_altkey pKey 0 blk := by
  obtain ⟨status, altkey, below, above, result, same, found⟩ :=
    @searchBlk_leaf db blk nodes gv_altkey pKey leaf target room expand_prev_key
  refine ⟨[⟨blk, status⟩], [⟨blk, status⟩], altkey, ?_, ?_, rfl, rfl⟩
  · rw [searchFrom, result]
  · rw [searchFrom, result]

theorem skipAgrees_index {recs : List BlockRec} {last : Nat} {expand_prev_key : Bool}
    (index : IndexBlock db blk nLevl recs last) (target : WellFormedTarget pKey) (room : MAX_KEY_SZ ≤ gv_altkey.top)
    (records : recordsFrom pKey.bytes recs = []) (level : levl (db.t_qread (childAt (db.t_qread blk) last)) = nLevl)
    (child : SkipAgrees db expand_prev_key gv_altkey pKey nLevl (childAt (db.t_qread blk) last)) :
    SkipAgrees db expand_prev_key gv_altkey pKey (nLevl + 1) blk := by
  obtain ⟨hist, hist', altkey, plain, skips, same, leaf⟩ := child
  obtain ⟨star, top⟩ := Records.star_at index.records
  obtain ⟨_, inside, upto⟩ := index.inside (.inl rfl)
  have place : (recordsFrom pKey.bytes recs).head?.elim last BlockRec.offset = last := by
    rw [records]
    rfl
  have result := @searchFrom_index db last blk nLevl recs gv_altkey pKey index target room expand_prev_key hist altkey
  rw [place] at result
  have some := (searchFrom_leaf plain).1
  have some' := (searchFrom_leaf skips).1
  refine ⟨_, hist' ++ [⟨blk, ⟨⟨PREV_REC_UNINITIALIZED, PREV_REC_UNINITIALIZED⟩, ⟨last, 0⟩⟩⟩], altkey,
    result level plain, ?_, ?_, ?_⟩
  · have offset : bsiz (db.t_qread blk) - BSTAR_REC_SIZE = last := by omega
    rw [searchFrom]
    unfold indexStatus
    rw [if_pos rfl, offset]
    dsimp only
    rw [if_neg (Nat.not_le.mpr inside), if_neg (Nat.not_lt.mpr upto), if_neg (fun other => other level), skips]
  · rw [List.map_append, List.map_append, same]
    rfl
  · rw [leafOf_append some, leafOf_append some', leaf]

/-- Behind a record with a key there is a node above it. -/
theorem Parts.exists_above {child : Nat → Nat} {sub : Nat → List Node → Prop} {last : Nat} {recs : List BlockRec}
    {r : BlockRec} (parts : Parts child sub last recs nodes) (some : ∀ blk nodes, sub blk nodes → nodes ≠ [])
    (member : r ∈ recs) : ∃ n ∈ nodes, r.key < n.key := by
  induction parts with
  | star => exact absurd member List.not_mem_nil
  | @record x recs part rest here upto behind more ih =>
    cases List.mem_cons.mp member with
    | inl same =>
      subst same
      cases rest with
      | nil => exact absurd rfl (more.nonempty some)
      | cons n rest =>
        exact ⟨n, List.mem_append_right _ List.mem_cons_self, behind n List.mem_cons_self⟩
    | inr later =>
      obtain ⟨n, inside, above⟩ := ih later
      exact ⟨n, List.mem_append_right _ inside, above⟩

/-- When all nodes are below the key, the search takes the star records anyway. -/
theorem skipAgrees (subtree : Subtree db nLevl blk nodes) (target : WellFormedTarget pKey)
    (room : MAX_KEY_SZ ≤ gv_altkey.top) (expand_prev_key : Bool) (less : ∀ n ∈ nodes, n.key < pKey.bytes) :
    SkipAgrees db expand_prev_key gv_altkey pKey nLevl blk := by
  induction nLevl generalizing blk nodes with
  | zero => exact skipAgrees_leaf subtree.1 target room expand_prev_key
  | succ nLevl ih =>
    obtain ⟨recs, last, index, parts⟩ := subtree
    have records : recordsFrom pKey.bytes recs = [] := by
      apply List.dropWhile_eq_nil_iff.mpr
      intro r member
      obtain ⟨n, inside, above⟩ := parts.exists_above (fun blk nodes => Subtree.nonempty) member
      exact decide_eq_true (List.lt_trans above (less n inside))
    obtain ⟨earlier, part, rfl, here⟩ := parts.final
    exact skipAgrees_index index target room records here.level
      (ih here fun n member => less n (List.mem_append_right _ member))

theorem leftTurn_congr {status : SrchBlkStatus} {passed : Nat} {above above' : List HistBlock}
    (same : above'.map HistBlock.blk_num = above.map HistBlock.blk_num) :
    leftTurn db gv_altkey gv_currkey blk status passed above' =
      leftTurn db gv_altkey gv_currkey blk status passed above := by
  induction above generalizing above' blk status passed with
  | nil => rw [List.map_eq_nil_iff.mp same]
  | cons old above ih =>
    obtain ⟨old', above', rfl, first, rest⟩ := List.map_eq_cons_iff.mp same
    rw [leftTurn, leftTurn]
    split
    · rfl
    · rw [first]
      cases searchBlk db false gv_altkey gv_currkey old.blk_num with
      | error status => rfl
      | ok searched => exact ih rest

theorem gvcst_lftsib_congr {hist' : List HistBlock}
    (same : hist'.map HistBlock.blk_num = hist.map HistBlock.blk_num) (leaf : leafOf hist' = leafOf hist) :
    gvcst_lftsib db gv_altkey gv_currkey hist' = gvcst_lftsib db gv_altkey gv_currkey hist := by
  cases hist with
  | nil => rw [List.map_eq_nil_iff.mp same]
  | cons first above =>
    obtain ⟨first', above', rfl, _, rest⟩ := List.map_eq_cons_iff.mp same
    have equal : first' = first := leaf
    unfold gvcst_lftsib
    dsimp only
    rw [equal, leftTurn_congr rest]

/-- The search from behind all nodes does not need the records of the index blocks. -/
theorem gvcst_zprevious2_skip (tree : TreeHolds db root nodes) (target : WellFormedTarget gv_currkey)
    (room : MAX_KEY_SZ ≤ gv_altkey.top) (less : ∀ n ∈ nodes, n.key < gv_currkey.bytes) :
    gvcst_zprevious2 db true gv_altkey gv_currkey root = gvcst_zprevious2 db false gv_altkey gv_currkey root := by
  have agrees : ∃ hist hist' altkey, gvcst_search db false true gv_altkey gv_currkey root = .ok (hist, altkey) ∧
      gvcst_search db true true gv_altkey gv_currkey root = .ok (hist', altkey) ∧
      hist'.map HistBlock.blk_num = hist.map HistBlock.blk_num ∧ leafOf hist' = leafOf hist := by
    have depth := tree.depth
    unfold gvcst_search
    dsimp only
    rw [if_neg (by omega), if_neg tree.index, if_neg (by omega), if_neg tree.index]
    cases tree.contents with
    | inl subtree => exact skipAgrees subtree target room true less
    | inr empty =>
      obtain ⟨rfl, last, index, leaf⟩ := empty
      have one : levl (db.t_qread root) = 0 + 1 := index.level
      rw [one]
      exact skipAgrees_index index target room rfl leaf.level (skipAgrees_leaf leaf target room true)
  obtain ⟨hist, hist', altkey, plain, skips, same, leaf⟩ := agrees
  unfold gvcst_zprevious2
  rw [plain, skips]
  dsimp only
  rw [leaf, gvcst_lftsib_congr same leaf]

/-! ## Cutting the key -/

section Cut

variable {base : ByteMemory} {q u s key a b : List UInt8}

/-- The scan stops behind the zero of the subscript. -/
theorem subscriptEnd_eq {front : List UInt8} {ctop turns c : Nat}
    (bytes : base.read c (front.length + 1) = front ++ [0]) (nonzero : ∀ b ∈ front, b ≠ 0)
    (within : c + front.length < ctop) (enough : front.length < turns) :
    subscriptEnd base ctop turns c = some (c + front.length + 1) := by
  induction front generalizing c turns with
  | nil =>
    obtain ⟨turns, rfl⟩ : ∃ n, turns = n + 1 := ⟨turns - 1, by simp only [List.length_nil] at enough; omega⟩
    have zero : base c = 0 := List.head_eq_of_cons_eq bytes
    rw [List.length_nil] at within
    rw [subscriptEnd, if_neg (by omega), if_pos zero]
    rfl
  | cons x front ih =>
    obtain ⟨turns, rfl⟩ : ∃ n, turns = n + 1 := ⟨turns - 1, by simp only [List.length_cons] at enough; omega⟩
    rw [List.length_cons] at within enough
    have split : base.read c (1 + (front.length + 1)) = [x] ++ (front ++ [0]) := by
      rw [Nat.add_comm 1]
      exact bytes
    obtain ⟨first, rest, _⟩ := read_eq_append split
    have here : base c = x := List.head_eq_of_cons_eq first
    have rest' : base.read (c + 1) (front.length + 1) = front ++ [0] := by
      rw [← rest]
      congr 1
      exact (Nat.add_sub_cancel_left 1 (front.length + 1)).symm
    have found := ih rest' (fun b member => nonzero b (List.mem_cons_of_mem _ member)) (by omega)
      (show front.length < turns by omega)
    have place : c + 1 + front.length + 1 = c + (front.length + 1) + 1 := by omega
    rw [subscriptEnd, if_neg (by omega), here, if_neg (nonzero x List.mem_cons_self), found, List.length_cons, place]

/-- Keys are in the order of their subscripts. -/
theorem append_zero_lt (nonzero : ∀ c ∈ s, c ≠ 0) (nonzeroU : ∀ c ∈ u, c ≠ 0) :
    s ++ 0 :: a < u ++ 0 :: b ↔ s < u ∨ s = u ∧ a < b := by
  have positive : ∀ c : UInt8, c ≠ 0 → 0 < c := fun c some => UInt8.lt_of_le_of_ne UInt8.zero_le (Ne.symm some)
  induction s generalizing u with
  | nil =>
    cases u with
    | nil => simp
    | cons d u =>
      have above := positive d (nonzeroU d List.mem_cons_self)
      simp [List.cons_lt_cons_iff, above]
  | cons c s ih =>
    cases u with
    | nil =>
      have notZero := nonzero c List.mem_cons_self
      simp [List.cons_lt_cons_iff, notZero]
    | cons d u =>
      have rest : s ++ 0 :: a < u ++ 0 :: b ↔ s < u ∨ s = u ∧ a < b :=
        ih (fun b member => nonzero b (List.mem_cons_of_mem _ member))
          (fun b member => nonzeroU b (List.mem_cons_of_mem _ member))
      rw [List.cons_append, List.cons_append, List.cons_lt_cons_iff, List.cons_lt_cons_iff, rest, List.cons.injEq]
      constructor
      · intro less
        cases less with
        | inl smaller => exact .inl (.inl smaller)
        | inr same =>
          obtain ⟨rfl, less⟩ := same
          cases less with
          | inl smaller => exact .inl (.inr ⟨rfl, smaller⟩)
          | inr equal => exact .inr ⟨⟨rfl, equal.1⟩, equal.2⟩
      · intro less
        cases less with
        | inl less =>
          cases less with
          | inl smaller => exact .inl smaller
          | inr same => exact .inr ⟨same.1, .inl same.2⟩
        | inr same => exact .inr ⟨same.1.1, .inr ⟨same.1.2, same.2⟩⟩

/-- A key goes on behind a subscript. -/
theorem HasSubscript.rest (has : HasSubscript q s key) (some : s ≠ []) (wellFormed : WellFormedKey key) :
    ∃ c more, key = q ++ (s ++ 0 :: c :: more) := by
  obtain ⟨behind, same⟩ := has.begins
  obtain ⟨_, count⟩ := has.wellFormed some wellFormed
  cases behind with
  | nil =>
    rw [← same, List.append_nil] at count
    simp only [List.length_append, List.length_cons, List.length_nil] at count
    omega
  | cons c more =>
    refine ⟨c, more, ?_⟩
    rw [← same]
    simp only [List.append_assoc, List.cons_append, List.nil_append]

/-- What is not below a subscript and ends a key has two bytes. -/
theorem HasSubscript.two_le {behind y : List UInt8} (has : HasSubscript q s key) (some : s ≠ [])
    (notLess : ¬ y < s ++ behind) (wellFormed : WellFormedKey (q ++ y)) : 2 ≤ y.length := by
  cases s with
  | nil => exact absurd rfl some
  | cons c s =>
    cases y with
    | nil => exact absurd (List.nil_lt_cons _ _) notLess
    | cons d y =>
      cases y with
      | cons e y => exact Nat.le_add_left 2 y.length
      | nil =>
        obtain ⟨body, whole, _⟩ := wellFormed.ends
        have regrouped : q ++ [d] = (body ++ [KEY_DELIMITER]) ++ [KEY_DELIMITER] := by
          rw [whole, List.append_assoc]
          rfl
        obtain rfl : d = 0 := List.head_eq_of_cons_eq (List.append_inj' regrouped rfl).2
        have above : (0 : UInt8) < c :=
          UInt8.lt_of_le_of_ne UInt8.zero_le (Ne.symm (has.nonzero c List.mem_cons_self))
        exact absurd (List.cons_lt_cons_iff.mpr (.inl above)) notLess

/-- A node is below a key when its subscript is. -/
theorem HasSubscript.lt_iff (has : HasSubscript q s key) (some : s ≠ []) (wellFormed : WellFormedKey key)
    (nonzero : ∀ c ∈ u, c ≠ 0) : key < q ++ u ++ [0, 0] ↔ s < u := by
  obtain ⟨c, more, rfl⟩ := has.rest some wellFormed
  have cancel : q ++ (s ++ 0 :: c :: more) < q ++ u ++ [0, 0] ↔ s ++ 0 :: c :: more < u ++ 0 :: [0] := by
    rw [List.append_assoc]
    exact ⟨lt_of_append_left, append_lt_append⟩
  rw [cancel, append_zero_lt has.nonzero nonzero]
  constructor
  · intro less
    cases less with
    | inl smaller => exact smaller
    | inr same =>
      cases List.cons_lt_cons_iff.mp same.2 with
      | inl impossible => exact absurd impossible UInt8.not_lt_zero
      | inr impossible => exact absurd impossible.2 (List.not_lt_nil _)
  · exact .inl

/-- What follows the beginning of a level. -/
def EndsLevel (q : List UInt8) : Prop := q = [] ∨ ∃ front, q = front ++ [0]

/-- A longer key that begins like the level has a subscript of the level. -/
theorem exists_subscript_of_long (wellFormed : WellFormedKey key) (level : EndsLevel q) (begins : q <+: key)
    (long : q.length + 1 < key.length) : ∃ s, HasSubscript q s key ∧ s ≠ [] := by
  obtain ⟨s, more, split, _, nonzero, some⟩ := exists_cut wellFormed (by omega : q.length + 2 ≤ key.length)
  obtain ⟨rest, rfl⟩ := begins
  rw [List.drop_left] at split
  subst split
  refine ⟨s, ⟨nonzero, more, by simp only [List.append_assoc, List.singleton_append]⟩, ?_⟩
  intro empty
  subst empty
  rw [List.nil_append] at wellFormed
  cases level with
  | inl first =>
    subst first
    exact wellFormed.starts rfl
  | inr delimited =>
    obtain ⟨front, rfl⟩ := delimited
    -- two delimiters stand in front of the end of the key
    obtain ⟨body, whole, chain⟩ := wellFormed.ends
    obtain ⟨init, x, rfl⟩ := (List.eq_nil_or_concat more).resolve_left some
    have regrouped : (front ++ 0 :: 0 :: init) ++ [x] = (body ++ [KEY_DELIMITER]) ++ [KEY_DELIMITER] := by
      rw [List.append_assoc body, List.append_assoc, List.cons_append, List.cons_append]
      rw [List.concat_eq_append, List.append_assoc] at whole
      exact whole
    rw [← (List.append_inj' regrouped rfl).1] at chain
    have pair := (List.isChain_append.mp chain).2.1
    cases (List.isChain_cons_cons.mp pair).1 with
    | inl other => exact other rfl
    | inr other => exact other rfl

theorem truncatePrev_none {found : Bool} (prev : gv_currkey.prev = q.length)
    (search : gv_currkey.bytes = q ++ u ++ [0, 0]) (some : u ≠ []) (bytes : altkey.bytes = key)
    (other : ¬ (q <+: key ∧ q.length + 1 < key.length)) :
    truncatePrev gv_currkey found altkey (commonPrefix gv_currkey.bytes key) = .ok (false, altkey) := by
  have width := gv_currkey.length_bytes
  have altWidth := altkey.length_bytes
  have positive := List.length_pos_iff.mpr some
  have parts : gv_currkey.bytes.length = q.length + u.length + 2 := by
    rw [search, List.length_append, List.length_append]
    rfl
  have first : gv_currkey.bytes.take q.length = q := by rw [search, List.append_assoc, List.take_left]
  have begins : q.length ≤ commonPrefix gv_currkey.bytes key ↔ q <+: key := by
    rw [le_commonPrefix_iff (by omega), first]
  rw [bytes] at altWidth
  unfold truncatePrev
  rw [prev, if_pos]
  by_cases level : q <+: key
  · have short : ¬ q.length + 1 < key.length := fun long => other ⟨level, long⟩
    exact .inl ⟨by omega, by omega⟩
  · exact .inr (Nat.lt_of_not_le fun enough => level (begins.mp enough))

/-- The key in front, cut to its level. -/
theorem truncatePrev_some {found : Bool} (prev : gv_currkey.prev = q.length)
    (search : gv_currkey.bytes = q ++ u ++ [0, 0]) (nonzero : ∀ c ∈ u, c ≠ 0) (bytes : altkey.bytes = key)
    (wellFormed : WellFormedKey key) (less : key < gv_currkey.bytes) (has : HasSubscript q s key) (some : s ≠ []) :
    ∃ cut, truncatePrev gv_currkey found altkey (commonPrefix gv_currkey.bytes key) = .ok (found, cut) ∧
      cut.bytes = q ++ s ++ [0, 0] ∧ cut.top = altkey.top := by
  have altWidth := altkey.length_bytes
  have parts : gv_currkey.bytes.length = q.length + u.length + 2 := by
    rw [search, List.length_append, List.length_append]
    rfl
  have smaller : s < u := (has.lt_iff some wellFormed nonzero).mp (search ▸ less)
  have low : q.length ≤ commonPrefix gv_currkey.bytes key := by
    apply (le_commonPrefix_iff (by omega)).mpr
    rw [search, List.append_assoc, List.take_left]
    exact (List.prefix_append q s).trans ((List.prefix_append _ _).trans has.begins)
  obtain ⟨c, more, split⟩ := has.rest some wellFormed
  have count : key.length = q.length + (s.length + (more.length + 2)) := by
    rw [split, List.length_append, List.length_append]
    rfl
  -- the keys part in front of the end of the subscript
  have high : commonPrefix gv_currkey.bytes key ≤ q.length + s.length := by
    by_contra more
    have taken : gv_currkey.bytes.take (q.length + s.length + 1) = q ++ s ++ [0] := by
      have both := congrArg (List.take (q.length + s.length + 1)) (take_commonPrefix gv_currkey.bytes key)
      rw [List.take_take, List.take_take, Nat.min_eq_left (by omega)] at both
      have front : (q ++ s ++ [0]).length = q.length + s.length + 1 := by
        rw [List.length_append, List.length_append]
        rfl
      rw [both, ← front]
      exact (List.prefix_iff_eq_take.mp has.begins).symm
    have inTarget : HasSubscript q s gv_currkey.bytes := ⟨has.nonzero, taken ▸ List.take_prefix _ _⟩
    have itself : HasSubscript q u gv_currkey.bytes := by
      refine ⟨nonzero, [0], ?_⟩
      rw [search, List.append_assoc (q ++ u)]
      rfl
    rw [inTarget.unique itself] at smaller
    exact List.lt_irrefl _ smaller
  rw [bytes] at altWidth
  generalize commonPrefix gv_currkey.bytes key = m at *
  have whole : altkey.base.read 0 (q.length + s.length + 1) = q ++ s ++ [0] := by
    have front : (q ++ s ++ [0]).length = q.length + s.length + 1 := by
      rw [List.length_append, List.length_append]
      rfl
    have taken : key.take (q.length + s.length + 1) = q ++ s ++ [0] := by
      rw [← front]
      exact (List.prefix_iff_eq_take.mp has.begins).symm
    rw [← taken, ← bytes]
    exact ByteMemory.read_take (by omega)
  have rest : altkey.base.read m ((s.drop (m - q.length)).length + 1) = s.drop (m - q.length) ++ [0] := by
    have dropped := ByteMemory.read_drop altkey.base 0 (by omega : m ≤ q.length + s.length + 1)
    have width : (s.drop (m - q.length)).length + 1 = q.length + s.length + 1 - m := by
      rw [List.length_drop]
      omega
    rw [whole, Nat.zero_add, List.append_assoc, List.drop_append, List.drop_eq_nil_of_le low, List.nil_append,
      List.drop_append_of_le_length (by omega)] at dropped
    rw [width]
    exact dropped
  have place : m + (s.drop (m - q.length)).length = q.length + s.length := by
    rw [List.length_drop]
    omega
  have found' := @subscriptEnd_eq altkey.base (s.drop (m - q.length)) altkey.end_ (altkey.end_ + 1) m rest
    (fun b member => has.nonzero b (List.mem_of_mem_drop member)) (by omega) (by omega)
  unfold truncatePrev
  rw [if_neg (by omega), found', place]
  refine ⟨_, rfl, ?_, rfl⟩
  unfold KeyBuffer.bytes
  dsimp only
  have same : (store altkey.base (q.length + s.length + 1) 0).read 0 (q.length + s.length + 1) =
      altkey.base.read 0 (q.length + s.length + 1) := ByteMemory.read_congr fun i less => store_other _ (by omega)
  have byte : store altkey.base (q.length + s.length + 1) 0 (q.length + s.length + 1) = 0 := store_same _ _ _
  have last : (store altkey.base (q.length + s.length + 1) 0).read (q.length + s.length + 1) 1 = [0] :=
    congrArg (fun b => [b]) byte
  rw [ByteMemory.read_add, same, whole, Nat.zero_add, last, List.append_assoc]
  rfl

end Cut

/-! ## The level -/

theorem lastBelow_none (none : lastBelow t nodes = none) : ∀ n ∈ nodes, ¬ n.key < t := by
  intro n member less
  have empty := List.getLast?_eq_none_iff.mp none
  exact List.filter_eq_nil_iff.mp empty n member (decide_eq_true less)

/-- No node below the key is above the last one. -/
theorem lastBelow_le (sorted : nodes.Pairwise fun a b => a.key < b.key) (last : lastBelow t nodes = some node) :
    node ∈ nodes ∧ node.key < t ∧ ∀ n ∈ nodes, n.key < t → ¬ node.key < n.key := by
  unfold lastBelow at last
  have inside := List.mem_filter.mp (List.mem_of_getLast? last)
  refine ⟨inside.1, of_decide_eq_true inside.2, ?_⟩
  intro n member less above
  obtain ⟨front, whole⟩ := List.getLast?_eq_some_iff.mp last
  have order := sorted.filter fun n => n.key < t
  have here : n ∈ nodes.filter fun n => n.key < t := List.mem_filter.mpr ⟨member, decide_eq_true less⟩
  rw [whole] at order here
  cases List.mem_append.mp here with
  | inl earlier =>
    have below := (List.pairwise_append.mp order).2.2 n earlier node List.mem_cons_self
    exact List.lt_irrefl _ (List.lt_trans above below)
  | inr same =>
    rw [List.mem_singleton.mp same] at above
    exact List.lt_irrefl _ above

/-- $ZPREVIOUS finds the closest subscript of the level below the one of the search. -/
theorem gvcst_zprevious2_level {q u : List UInt8} (tree : TreeHolds db root nodes) (target : WellFormedTarget gv_currkey)
    (room : MAX_KEY_SZ ≤ gv_altkey.top) (prev : gv_currkey.prev = q.length) (level : EndsLevel q)
    (search : gv_currkey.bytes = q ++ u ++ [0, 0]) (nonzero : ∀ c ∈ u, c ≠ 0) (some : u ≠ []) :
    (∃ altkey, gvcst_zprevious2 db false gv_altkey gv_currkey root = .ok (false, altkey) ∧
        ∀ n ∈ nodes, ∀ s, s ≠ [] → HasSubscript q s n.key → ¬ s < u) ∨
      ∃ node altkey s, node ∈ nodes ∧ HasSubscript q s node.key ∧ s ≠ [] ∧ s < u ∧
        gvcst_zprevious2 db false gv_altkey gv_currkey root = .ok (true, altkey) ∧
        altkey.bytes = q ++ s ++ [0, 0] ∧ altkey.top = gv_altkey.top ∧
        ∀ n ∈ nodes, ∀ s', s' ≠ [] → HasSubscript q s' n.key → s' < u → ¬ s < s' := by
  have lessIff : ∀ n ∈ nodes, ∀ s, s ≠ [] → HasSubscript q s n.key → (n.key < gv_currkey.bytes ↔ s < u) := by
    intro n member s some has
    rw [search]
    exact has.lt_iff some (tree.grammar n member) nonzero
  cases gvcst_zprevious2_last tree target room with
  | inl none =>
    obtain ⟨empty, altkey, result⟩ := none
    refine .inl ⟨altkey, result, ?_⟩
    intro n member s some has less
    exact lastBelow_none empty n member ((lessIff n member s some has).mpr less)
  | inr found =>
    obtain ⟨node, altkey, last, bytes, top, result⟩ := found
    obtain ⟨member, below, highest⟩ := lastBelow_le tree.sorted last
    have wellFormed := tree.grammar node member
    by_cases inLevel : q <+: node.key ∧ q.length + 1 < node.key.length
    · obtain ⟨s, has, some'⟩ := exists_subscript_of_long wellFormed level inLevel.1 inLevel.2
      obtain ⟨cut, truncated, cutBytes, cutTop⟩ :=
        @truncatePrev_some gv_currkey altkey q u s node.key true prev search nonzero bytes wellFormed below has some'
      refine .inr ⟨node, cut, s, member, has, some', (lessIff node member s some' has).mp below,
        result.trans truncated, cutBytes, cutTop.trans top, ?_⟩
      intro n inside s' some'' has' less above
      apply highest n inside ((lessIff n inside s' some'' has').mpr less)
      obtain ⟨c, more, same⟩ := has.rest some' wellFormed
      obtain ⟨c', more', same'⟩ := has'.rest some'' (tree.grammar n inside)
      rw [same, same']
      exact append_lt_append ((append_zero_lt has.nonzero has'.nonzero).mpr (.inl above))
    · refine .inl ⟨altkey, result.trans (truncatePrev_none prev search some bytes inLevel), ?_⟩
      intro n inside s' some' has' less
      apply inLevel
      have notAbove := highest n inside ((lessIff n inside s' some' has').mpr less)
      obtain ⟨c, more, same⟩ := has'.rest some' (tree.grammar n inside)
      -- the last node below the key lies between two keys of the level
      have low : ¬ node.key < q ++ (s' ++ 0 :: c :: more) := by
        rw [← same]
        exact notAbove
      have high : node.key < q ++ (u ++ [0, 0]) := by
        rw [← List.append_assoc, ← search]
        exact below
      obtain ⟨y, whole, notLess, _⟩ := between_prefix low high
      refine ⟨⟨y, whole.symm⟩, ?_⟩
      have long := has'.two_le some' notLess (whole ▸ wellFormed)
      rw [whole, List.length_append]
      omega

end Ydb.GlobalTree
