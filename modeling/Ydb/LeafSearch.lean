import Ydb.LeafBuilding

/-!
# Searching a leaf

The search for a key splits the nodes of a leaf into those below the key and the others, and says where the
records of the latter begin.
-/

namespace Ydb.BlockUpdate

open Lib

/-- What a search for `t` leaves of a leaf with the nodes `below` and `above`. -/
structure SearchedLeaf (buffaddr : ByteMemory) (t : List UInt8) (bh : SrchBlkStatus) (below above : List Node) :
    Prop where
  less : ∀ n ∈ below, n.key < t
  notLess : ∀ n ∈ above, ¬ n.key < t
  first : SIZEOF_blk_hdr ≤ bh.curr_rec.offset
  last : bh.curr_rec.offset ≤ bsiz buffaddr
  front : Stored [] (buffaddr.read SIZEOF_blk_hdr (bh.curr_rec.offset - SIZEOF_blk_hdr)) below
  back : Stored (lastNode [] below)
    (buffaddr.read bh.curr_rec.offset (bsiz buffaddr - bh.curr_rec.offset)) above
  prev : bh.prev_rec.match_ = commonPrefix t (lastNode [] below)
  curr : bh.curr_rec.match_ = above.head?.elim 0 fun n => commonPrefix t n.key
  prevRec : below = [] ∧ bh.prev_rec.offset = 0 ∨
    below ≠ [] ∧ SIZEOF_blk_hdr ≤ bh.prev_rec.offset ∧
      SIZEOF_rec_hdr < rsiz buffaddr bh.prev_rec.offset ∧
      bh.prev_rec.offset + rsiz buffaddr bh.prev_rec.offset = bh.curr_rec.offset

section Offsets

variable {buffaddr : ByteMemory} {pTop rp last : Nat} {prev t : List UInt8} {before after : List BlockRec}

theorem Records.first_offset (records : Records buffaddr true pTop prev rp after last) :
    after.head?.elim last BlockRec.offset = rp := by
  cases records with
  | top => rfl
  | star index => cases index
  | record => rfl

theorem status_offset {last : Nat} :
    (after.head?.elim ⟨last, 0⟩ (BlockRec.status t)).offset = after.head?.elim last BlockRec.offset := by
  cases after with
  | nil => rfl
  | cons r after => rfl

theorem status_match :
    (after.head?.elim ⟨last, 0⟩ (BlockRec.status t)).match_ =
      (after.map (nodeOf buffaddr)).head?.elim 0 fun n => commonPrefix t n.key := by
  cases after with
  | nil => rfl
  | cons r after => rfl

theorem commonPrefix_nil (a : List UInt8) : commonPrefix a [] = 0 := by
  cases a with
  | nil => rfl
  | cons x a => rfl

theorem prevStatus_match :
    (before.getLast?.elim ⟨0, 0⟩ (BlockRec.status t)).match_ = commonPrefix t (lastKey [] before) := by
  unfold lastKey
  cases before.getLast? with
  | none => exact (commonPrefix_nil t).symm
  | some r => rfl

/-- The record in front ends where the others begin. -/
theorem Records.last_record (records : Records buffaddr true pTop [] SIZEOF_blk_hdr (before ++ after) last)
    {place : Nat} (behind : after.head?.elim last BlockRec.offset = place) :
    let status := before.getLast?.elim ⟨0, 0⟩ (BlockRec.status t)
    before = [] ∧ status.offset = 0 ∨
      before ≠ [] ∧ SIZEOF_blk_hdr ≤ status.offset ∧ SIZEOF_rec_hdr < rsiz buffaddr status.offset ∧
        status.offset + rsiz buffaddr status.offset = place := by
  cases List.eq_nil_or_concat before with
  | inl empty =>
    subst empty
    exact .inl ⟨rfl, rfl⟩
  | inr parts =>
    obtain ⟨front, r, rfl⟩ := parts
    rw [List.concat_eq_append, List.append_assoc] at records
    obtain ⟨record, more, above, _⟩ := Records.around records
    have shared := (partsAt_commonPrefix record.order).length_right
    have size := record.size
    rw [List.concat_eq_append, List.getLast?_append]
    refine .inr ⟨List.append_ne_nil_of_right_ne_nil _ (List.cons_ne_nil r []), above, ?_, ?_⟩
    · exact Nat.lt_of_lt_of_le (by omega) size
    · exact (Records.first_offset more).symm.trans behind

end Offsets

/-- A search in a leaf. -/
theorem gvcst_search_blk_leaf {blk_size : Nat} {buffaddr : ByteMemory} {nodes : List Node}
    {gv_altkey pKey : KeyBuffer} (leaf : Leaf blk_size buffaddr nodes) (target : WellFormedTarget pKey)
    (room : MAX_KEY_SZ ≤ gv_altkey.top) (expand_prev_key : Bool) :
    ∃ bh altkey below above, gvcst_search_blk blk_size expand_prev_key gv_altkey pKey buffaddr =
      .ok (bh, altkey) ∧ nodes = below ++ above ∧ SearchedLeaf buffaddr pKey.bytes bh below above := by
  obtain ⟨recs, block, level, rfl⟩ := leaf_iff.mp leaf
  obtain ⟨altkey, result, _⟩ := @gvcst_search_blk_eq blk_size expand_prev_key gv_altkey pKey buffaddr recs _
    block target room
  have parts := recordsBelow_append_recordsFrom pKey.bytes recs
  have records := block.records
  rw [decide_eq_true level, parts] at records
  unfold searched at result
  have below := @lt_of_mem_recordsBelow pKey.bytes recs
  have head := @head_recordsFrom pKey.bytes recs
  generalize recordsBelow pKey.bytes recs = before at parts records result below
  generalize recordsFrom pKey.bytes recs = after at parts records result head
  obtain ⟨place, first, front, behind⟩ := Records.split records
  have offset := Records.first_offset behind
  have back := Records.stored behind
  have rightly : (after.head?.elim ⟨bsiz buffaddr, 0⟩ (BlockRec.status pKey.bytes)).offset = place := by
    rw [status_offset]
    exact offset
  refine ⟨_, altkey, before.map (nodeOf buffaddr), after.map (nodeOf buffaddr), result, ?_, ?_⟩
  · rw [parts, List.map_append]
  · have lasts := @lastKey_node [] buffaddr before
    refine ⟨?_, ?_, ?_, ?_, ?_, ?_, ?_, status_match, ?_⟩
    · intro n member
      obtain ⟨r, found, rfl⟩ := List.mem_map.mp member
      exact below r found
    · intro n member
      cases after with
      | nil => exact absurd member List.not_mem_nil
      | cons r after =>
        have notLess : ¬ r.key < pKey.bytes := head r rfl
        rw [List.map_cons] at member back
        have sorted := List.pairwise_cons.mp back.sorted
        cases List.mem_cons.mp member with
        | inl same =>
          subst same
          exact notLess
        | inr later =>
          intro less
          exact notLess (List.lt_trans (sorted.1 n later) less)
    · rw [rightly]
      exact first
    · rw [rightly]
      exact behind.le_top
    · rw [rightly]
      exact front
    · rw [rightly, ← lasts]
      exact back
    · rw [← lasts]
      exact prevStatus_match
    · rw [rightly]
      cases Records.last_record (t := pKey.bytes) records offset with
      | inl none =>
        subst parts
        exact .inl ⟨by rw [none.1]; rfl, none.2⟩
      | inr some => exact .inr ⟨fun empty => some.1 (List.map_eq_nil_iff.mp empty), some.2⟩

end Ydb.BlockUpdate
