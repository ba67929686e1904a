import Ydb.TreeDescent

/-!
# The leaves beside a leaf

From the path of a search, the right sibling of the leaf is the first leaf behind it, and the left sibling the
last one in front of it. There is none when no nodes are there.
-/

namespace Ydb.GlobalTree

open Lib BlockUpdate

variable {db : Database} {t : List UInt8} {child : Nat → Nat} {sub : Nat → List Node → Prop} {last blk nLevl root : Nat}
variable {recs : List BlockRec} {nodes left below above right : List Node} {gv_altkey gv_currkey : KeyBuffer}
variable {hist : List HistBlock}

theorem Parts.first (parts : Parts child sub last recs nodes) :
    ∃ part rest, nodes = part ++ rest ∧ sub (child (recs.head?.elim last BlockRec.offset)) part := by
  cases parts with
  | star here => exact ⟨nodes, [], (List.append_nil _).symm, here⟩
  | record here _ _ _ => exact ⟨_, _, rfl, here⟩

theorem Parts.final (parts : Parts child sub last recs nodes) :
    ∃ earlier part, nodes = earlier ++ part ∧ sub (child last) part := by
  induction parts with
  | star here => exact ⟨[], _, rfl, here⟩
  | @record r recs part rest _ _ _ _ ih =>
    obtain ⟨earlier, final, rfl, here⟩ := ih
    exact ⟨part ++ earlier, final, (List.append_assoc _ _ _).symm, here⟩

theorem Path.length (path : Path db t nLevl blk hist left below above right) : hist.length = nLevl + 1 := by
  induction path with
  | leaf => rfl
  | index _ _ _ _ ih => rw [List.length_append, ih, List.length_singleton]

theorem Path.ne_nil (path : Path db t nLevl blk hist left below above right) : hist ≠ [] := by
  intro empty
  have length := path.length
  rw [empty] at length
  cases length

/-! ## To the right -/

/-- A turn that is found stays with more levels. -/
theorem rightTurn_found {passed : Nat} {front more : List HistBlock} {turn : HistBlock × Nat}
    (found : rightTurn db gv_altkey gv_currkey passed front = .ok turn) :
    rightTurn db gv_altkey gv_currkey passed (front ++ more) = .ok turn := by
  induction front generalizing passed with
  | nil => cases found
  | cons old front ih =>
    rw [List.cons_append]
    rw [rightTurn] at found ⊢
    cases result : searchBlk db false gv_altkey gv_currkey old.blk_num with
    | error status =>
      rw [result] at found
      cases found
    | ok searched =>
      rw [result] at found
      dsimp only at found ⊢
      split at found
      · cases found
      · split at found
        · rename_i aligned turns
          rw [if_neg aligned, if_pos turns]
          exact found
        · rename_i aligned star
          rw [if_neg aligned, if_neg star]
          exact ih found

/-- A walk that ends goes on with the next level. -/
theorem rightTurn_end {passed : Nat} {front more : List HistBlock}
    (ends : rightTurn db gv_altkey gv_currkey passed front = .error .endtree) :
    rightTurn db gv_altkey gv_currkey passed (front ++ more) =
      rightTurn db gv_altkey gv_currkey (passed + front.length) more := by
  induction front generalizing passed with
  | nil => rfl
  | cons old front ih =>
    rw [List.cons_append, List.length_cons]
    rw [rightTurn] at ends ⊢
    cases result : searchBlk db false gv_altkey gv_currkey old.blk_num with
    | error status =>
      rw [result] at ends
      unfold searchBlk at result
      split at result
      · cases result
        cases ends
      · cases result
    | ok searched =>
      rw [result] at ends
      dsimp only at ends ⊢
      split at ends
      · cases ends
      · split at ends
        · cases ends
        · rename_i aligned star
          rw [if_neg aligned, if_neg star, ih ends]
          congr 1
          omega

/-- The turn to the right: a record behind that of the search, whose child holds the next nodes. -/
structure TurnsRight (db : Database) (turn : HistBlock × Nat) (right : List Node) : Prop where
  holds : ∃ nLevl recs last part rest, IndexBlock db turn.1.blk_num nLevl recs last ∧ turn.2 = nLevl + 1 ∧
    RecordAt recs last turn.1.status.curr_rec.offset ∧
    Subtree db nLevl (childAt (db.t_qread turn.1.blk_num) turn.1.status.curr_rec.offset) part ∧ right = part ++ rest

/-- The turn in one block: there is none from the star record. -/
theorem rightTurn_one {back : List Node} (index : IndexBlock db blk nLevl recs last)
    (target : WellFormedTarget gv_currkey) (room : MAX_KEY_SZ ≤ gv_altkey.top) (status : SrchBlkStatus)
    (rights : RightOf (childAt (db.t_qread blk)) (Subtree db nLevl) last (recordsFrom gv_currkey.bytes recs) back) :
    back = [] ∧ rightTurn db gv_altkey gv_currkey (nLevl + 1) [⟨blk, status⟩] = .error .endtree ∨
      ∃ turn, rightTurn db gv_altkey gv_currkey (nLevl + 1) [⟨blk, status⟩] = .ok turn ∧
        TurnsRight db turn back := by
  obtain ⟨_, result⟩ := @searchBlk_index db last blk nLevl recs gv_altkey gv_currkey index target room false
  obtain ⟨_, _, upto⟩ := index.inside (recordAt_head gv_currkey.bytes recs last)
  have records := index.records
  rw [recordsBelow_append_recordsFrom gv_currkey.bytes recs] at records
  have members : ∀ r ∈ recordsFrom gv_currkey.bytes recs, r ∈ recs := fun r member =>
    (List.dropWhile_sublist _).subset member
  rw [rightTurn, result]
  dsimp only
  rw [searched_offset]
  cases after : recordsFrom gv_currkey.bytes recs with
  | nil =>
    obtain ⟨star, top⟩ := Records.star_at index.records
    rw [after] at rights
    have place : (([] : List BlockRec).head?.elim last BlockRec.offset) = last := rfl
    rw [place, star, if_neg (by omega), if_neg (by omega)]
    exact .inl ⟨rights, rfl⟩
  | cons r rest =>
    rw [after] at records rights members upto
    have place : ((r :: rest).head?.elim last BlockRec.offset) = r.offset := rfl
    obtain ⟨next, _⟩ := Records.next records
    have record : RecordAt recs last (rest.head?.elim last BlockRec.offset) := by
      cases found : rest.head? with
      | none => exact .inl rfl
      | some x =>
        exact .inr ⟨x, members x (List.mem_cons_of_mem _ (List.mem_of_head? found)), rfl⟩
    obtain ⟨_, inside, _⟩ := index.inside record
    have small := index.small
    rw [place] at upto ⊢
    rw [next, if_neg (by omega), if_pos inside, Nat.mod_eq_of_lt (by omega)]
    obtain ⟨part, more, rfl, here⟩ := Parts.first rights
    exact .inr ⟨_, rfl, nLevl, recs, last, part, more, index, rfl, record, here, rfl⟩

/-- The walk up a path turns where the tree has more to the right. -/
theorem rightTurn_path (path : Path db gv_currkey.bytes nLevl blk hist left below above right)
    (target : WellFormedTarget gv_currkey) (room : MAX_KEY_SZ ≤ gv_altkey.top) :
    right = [] ∧ rightTurn db gv_altkey gv_currkey 1 hist.tail = .error .endtree ∨
      ∃ turn, rightTurn db gv_altkey gv_currkey 1 hist.tail = .ok turn ∧ TurnsRight db turn right := by
  induction path with
  | leaf => exact .inl ⟨rfl, rfl⟩
  | @index nLevl blk recs last status hist front left below above right back index path lefts rights ih =>
    have length := path.length
    rw [List.tail_append_of_ne_nil path.ne_nil]
    cases ih with
    | inl ends =>
      obtain ⟨rfl, ends⟩ := ends
      have passed : 1 + hist.tail.length = nLevl + 1 := by
        rw [List.length_tail, length]
        omega
      rw [rightTurn_end ends, passed, List.nil_append]
      exact rightTurn_one index target room status rights
    | inr turns =>
      obtain ⟨turn, found, holds⟩ := turns
      obtain ⟨level, recs, last, part, rest, indexBlock, levels, record, here, rfl⟩ := holds.holds
      refine .inr ⟨turn, rightTurn_found found, level, recs, last, part, rest ++ back, indexBlock, levels, record,
        here, List.append_assoc _ _ _⟩

/-- The first children end in the first leaf. -/
theorem firstChildren_leaf {rp : Nat} {part : List Node} (subtree : Subtree db nLevl (childAt (db.t_qread blk) rp) part)
    (aligned : rp + rsiz (db.t_qread blk) rp ≤ bsiz (db.t_qread blk)) :
    ∃ first more leaf rest, firstChildren db (nLevl + 1) blk rp = .ok (first :: more) ∧
      Leaf db.blk_size (db.t_qread first.blk_num) leaf ∧ leaf ≠ [] ∧ part = leaf ++ rest := by
  induction nLevl generalizing blk rp part with
  | zero =>
    rw [firstChildren]
    dsimp only
    rw [if_neg (Nat.not_lt.mpr aligned)]
    exact ⟨_, [], part, [], rfl, subtree.1, subtree.2, (List.append_nil _).symm⟩
  | succ nLevl ih =>
    obtain ⟨recs, last, index, parts⟩ := subtree
    obtain ⟨first, others, rfl, here⟩ := parts.first
    have begins := Records.begin index.records
    have record : RecordAt recs last (recs.head?.elim last BlockRec.offset) := by
      cases found : recs.head? with
      | none => exact .inl rfl
      | some r => exact .inr ⟨r, List.mem_of_head? found, rfl⟩
    rw [begins] at here record
    obtain ⟨leafBlk, more, leaf, rest, result, held, some, rfl⟩ :=
      ih here (index.inside record).2.2
    rw [firstChildren]
    dsimp only
    rw [if_neg (Nat.not_lt.mpr aligned), result]
    exact ⟨leafBlk, _, leaf, rest ++ others, rfl, held, some, List.append_assoc _ _ _⟩

/-- The right sibling of the leaf of a search. -/
theorem gvcst_rtsib_path (path : Path db gv_currkey.bytes nLevl blk hist left below above right)
    (target : WellFormedTarget gv_currkey) (room : MAX_KEY_SZ ≤ gv_altkey.top) :
    right = [] ∧ gvcst_rtsib db gv_altkey gv_currkey hist = .error .endtree ∨
      ∃ rt_history leaf rest, gvcst_rtsib db gv_altkey gv_currkey hist = .ok rt_history ∧
        Leaf db.blk_size (db.t_qread (leafOf rt_history).blk_num) leaf ∧ leaf ≠ [] ∧ right = leaf ++ rest := by
  unfold gvcst_rtsib
  cases rightTurn_path path target room with
  | inl ends =>
    rw [ends.2]
    exact .inl ⟨ends.1, rfl⟩
  | inr turns =>
    obtain ⟨turn, found, holds⟩ := turns
    obtain ⟨level, recs, last, part, rest, index, levels, record, here, rfl⟩ := holds.holds
    obtain ⟨_, inside, aligned⟩ := index.inside record
    obtain ⟨first, more, leaf, others, result, held, some, rfl⟩ := firstChildren_leaf here aligned
    rw [found]
    dsimp only
    rw [levels, if_neg (by omega), result]
    exact .inr ⟨_, leaf, others ++ rest, rfl, held, some, List.append_assoc _ _ _⟩

/-! ## To the left -/

theorem searchBlk_endtree {expand_prev_key : Bool} {pKey : KeyBuffer} :
    searchBlk db expand_prev_key gv_altkey pKey blk ≠ .error .endtree := by
  intro ends
  unfold searchBlk at ends
  split at ends
  · cases ends
  · cases ends

/-- A turn that is found stays with more levels. -/
theorem leftTurn_found {status : SrchBlkStatus} {passed : Nat} {front more : List HistBlock} {turn : HistBlock × Nat}
    (found : leftTurn db gv_altkey gv_currkey blk status passed front = .ok turn) :
    leftTurn db gv_altkey gv_currkey blk status passed (front ++ more) = .ok turn := by
  induction front generalizing blk status passed with
  | nil =>
    rw [leftTurn] at found
    split at found
    · rename_i some
      rw [List.nil_append]
      unfold leftTurn
      rw [if_pos some]
      exact found
    · cases found
  | cons old front ih =>
    rw [List.cons_append]
    rw [leftTurn] at found ⊢
    split at found
    · rename_i some
      rw [if_pos some]
      exact found
    · rename_i none
      rw [if_neg none]
      cases result : searchBlk db false gv_altkey gv_currkey old.blk_num with
      | error status =>
        rw [result] at found
        cases found
      | ok searched =>
        rw [result] at found
        exact ih found

/-- A walk that ends goes on with the next level. -/
theorem leftTurn_end {status : SrchBlkStatus} {passed : Nat} {front more : List HistBlock} {entry : HistBlock}
    (ends : leftTurn db gv_altkey gv_currkey blk status passed front = .error .endtree) :
    leftTurn db gv_altkey gv_currkey blk status passed (front ++ entry :: more) =
      match searchBlk db false gv_altkey gv_currkey entry.blk_num with
      | .error status => .error status
      | .ok (status, _) => leftTurn db gv_altkey gv_currkey entry.blk_num status (passed + front.length + 1) more := by
  induction front generalizing blk status passed with
  | nil =>
    rw [leftTurn] at ends
    split at ends
    · cases ends
    · rename_i none
      rw [List.nil_append, leftTurn, if_neg none]
      rfl
  | cons old front ih =>
    rw [List.cons_append, List.length_cons]
    rw [leftTurn] at ends ⊢
    split at ends
    · cases ends
    · rename_i none
      rw [if_neg none]
      cases result : searchBlk db false gv_altkey gv_currkey old.blk_num with
      | error status =>
        rw [result] at ends
        have same : Except.error status = (Except.error .endtree : Except CdbSc (HistBlock × Nat)) := ends
        rw [Except.error.inj same] at result
        exact absurd result searchBlk_endtree
      | ok searched =>
        rw [result] at ends
        dsimp only at ends ⊢
        rw [ih ends]
        have passes : passed + 1 + front.length + 1 = passed + (front.length + 1) + 1 := by omega
        rw [passes]

/-- The turn to the left: the record in front of that of the search, whose child holds the nodes before. -/
structure TurnsLeft (db : Database) (turn : HistBlock × Nat) (left : List Node) : Prop where
  holds : ∃ nLevl recs last earlier part, IndexBlock db turn.1.blk_num nLevl recs last ∧ turn.2 = nLevl + 1 ∧
    RecordAt recs last turn.1.status.prev_rec.offset ∧
    Subtree db nLevl (childAt (db.t_qread turn.1.blk_num) turn.1.status.prev_rec.offset) part ∧ left = earlier ++ part

/-- One index block turns where it has a record in front. -/
theorem leftTurn_one {front : List Node} {status : SrchBlkStatus} (index : IndexBlock db blk nLevl recs last)
    (searches : status = searched t last ⟨0, 0⟩ recs)
    (lefts : LeftOf (childAt (db.t_qread blk)) (Subtree db nLevl) (recordsBelow t recs) front) :
    front = [] ∧ leftTurn db gv_altkey gv_currkey blk status (nLevl + 1) [] = .error .endtree ∨
      ∃ turn, leftTurn db gv_altkey gv_currkey blk status (nLevl + 1) [] = .ok turn ∧ TurnsLeft db turn front := by
  have offset : status.prev_rec.offset = ((recordsBelow t recs).getLast?.elim ⟨0, 0⟩ (BlockRec.status t)).offset := by
    rw [searches]
    rfl
  unfold leftTurn
  cases lefts with
  | inl none =>
    rw [none.1] at offset
    have zero : status.prev_rec.offset = 0 := offset
    rw [if_neg (by omega)]
    exact .inl ⟨none.2, rfl⟩
  | inr some =>
    obtain ⟨init, r, earlier, part, before, rfl, here⟩ := some
    rw [before, List.getLast?_append] at offset
    have place : status.prev_rec.offset = r.offset := offset
    have member : r ∈ recs := by
      apply (List.takeWhile_sublist fun r : BlockRec => decide (r.key < t)).subset
      have last : r ∈ recordsBelow t recs := by
        rw [before]
        exact List.mem_append_right _ List.mem_cons_self
      exact last
    have record : RecordAt recs last r.offset := .inr ⟨r, member, rfl⟩
    have first := (index.inside record).1
    unfold SIZEOF_blk_hdr at first
    rw [place, if_pos (by omega)]
    rw [← place] at record here
    exact .inr ⟨_, rfl, nLevl, recs, last, earlier, part, index, rfl, record, here, rfl⟩

/-- The turn from a leaf whose first key is not below the key of the search. -/
theorem leftTurn_path (path : Path db gv_currkey.bytes nLevl blk hist left below above right) (empty : below = [])
    (target : WellFormedTarget gv_currkey) (room : MAX_KEY_SZ ≤ gv_altkey.top) :
    ∃ leaf more, hist = leaf :: more ∧
      (left = [] ∧ leftTurn db gv_altkey gv_currkey leaf.blk_num leaf.status 0 more = .error .endtree ∨
        ∃ turn, leftTurn db gv_altkey gv_currkey leaf.blk_num leaf.status 0 more = .ok turn ∧
          TurnsLeft db turn left) := by
  induction path with
  | @leaf blk status below above leaf found =>
    subst empty
    refine ⟨_, [], rfl, .inl ⟨rfl, ?_⟩⟩
    cases found.prevRec with
    | inl none =>
      have zero : (HistBlock.mk blk status).status.prev_rec.offset = 0 := none.2
      unfold leftTurn
      rw [if_neg (by omega)]
    | inr some => exact absurd rfl some.1
  | @index nLevl blk recs last status hist front left below above right back index path lefts rights ih =>
    obtain ⟨leaf, more, rfl, turns⟩ := ih empty
    have length := path.length
    rw [List.length_cons] at length
    refine ⟨leaf, more ++ [⟨blk, status⟩], rfl, ?_⟩
    cases turns with
    | inl ends =>
      obtain ⟨rfl, ends⟩ := ends
      obtain ⟨_, result⟩ := @searchBlk_index db last blk nLevl recs gv_altkey gv_currkey index target room false
      have passed : 0 + more.length + 1 = nLevl + 1 := by omega
      rw [leftTurn_end ends, List.append_nil]
      dsimp only
      rw [result, passed]
      exact leftTurn_one index rfl lefts
    | inr turns =>
      obtain ⟨turn, found, holds⟩ := turns
      obtain ⟨level, recs, last, earlier, part, indexBlock, levels, record, here, rfl⟩ := holds.holds
      exact .inr ⟨turn, leftTurn_found found, level, recs, last, front ++ earlier, part, indexBlock, levels, record,
        here, (List.append_assoc _ _ _).symm⟩

/-- The last children end in the last leaf. -/
theorem lastChildren_leaf {rtop : Nat} {part : List Node}
    (subtree : Subtree db nLevl (GET_BLK_ID (db.t_qread blk) (rtop - SIZEOF_block_id)) part) :
    ∃ last more earlier leaf, lastChildren db (nLevl + 1) blk rtop = last :: more ∧
      Leaf db.blk_size (db.t_qread last) leaf ∧ leaf ≠ [] ∧ part = earlier ++ leaf := by
  induction nLevl generalizing blk rtop part with
  | zero =>
    rw [lastChildren]
    exact ⟨_, [], [], part, rfl, subtree.1, subtree.2, rfl⟩
  | succ nLevl ih =>
    obtain ⟨recs, last, index, parts⟩ := subtree
    obtain ⟨earlier, part, rfl, here⟩ := parts.final
    obtain ⟨star, top⟩ := Records.star_at index.records
    have small := index.small
    unfold childAt at here
    rw [star, top, ← Nat.mod_eq_of_lt small] at here
    obtain ⟨leafBlk, more, before, leaf, result, held, some, rfl⟩ := ih here
    rw [lastChildren, result]
    exact ⟨leafBlk, _, earlier ++ before, leaf, rfl, held, some, (List.append_assoc _ _ _).symm⟩

/-- The left sibling of the leaf of a search, when the search has found nothing below in the leaf. -/
theorem gvcst_lftsib_path (path : Path db gv_currkey.bytes nLevl blk hist left [] above right)
    (target : WellFormedTarget gv_currkey) (room : MAX_KEY_SZ ≤ gv_altkey.top) :
    left = [] ∧ gvcst_lftsib db gv_altkey gv_currkey hist = .error .endtree ∨
      ∃ last more earlier leaf, gvcst_lftsib db gv_altkey gv_currkey hist = .ok (last :: more) ∧
        Leaf db.blk_size (db.t_qread last) leaf ∧ leaf ≠ [] ∧ left = earlier ++ leaf := by
  obtain ⟨first, above, rfl, turns⟩ := leftTurn_path path rfl target room
  unfold gvcst_lftsib
  dsimp only
  cases turns with
  | inl ends =>
    rw [ends.2]
    exact .inl ⟨ends.1, rfl⟩
  | inr turns =>
    obtain ⟨turn, found, holds⟩ := turns
    obtain ⟨level, recs, last, earlier, part, index, levels, record, here, rfl⟩ := holds.holds
    obtain ⟨_, _, aligned⟩ := index.inside record
    have small := index.small
    have rtop : (turn.1.status.prev_rec.offset + rsiz (db.t_qread turn.1.blk_num) turn.1.status.prev_rec.offset) %
        2 ^ 16 = turn.1.status.prev_rec.offset + rsiz (db.t_qread turn.1.blk_num) turn.1.status.prev_rec.offset :=
      Nat.mod_eq_of_lt (by omega)
    unfold childAt at here
    obtain ⟨leafBlk, more, before, leaf, result, held, some, rfl⟩ := lastChildren_leaf here
    rw [found]
    dsimp only
    rw [rtop, if_neg (by omega), levels, result]
    exact .inr ⟨leafBlk, _, earlier ++ before, leaf, rfl, held, some, (List.append_assoc _ _ _).symm⟩

end Ydb.GlobalTree
