import Ydb.RecordReplacement

/-!
# Increments under crit

From a leaf that has the current key, `gvincr_recompute_upd_array` makes an update array from which the same
block is built as from that of `gvcst_put2`. In this block the record of the key has the new value, and
nothing else differs.
-/

namespace Ydb.BlockUpdate

open Lib

/-! ## The search -/

section Search

variable {g : UpdateGlobals} {buffaddr : ByteMemory} {before after : List BlockRec} {r : BlockRec}
variable {last : Nat}

theorem searched_at {t : List UInt8} (inFront : ∀ x ∈ before, x.key < t) (current : r.key = t)
    (prev : SrchRecStatus) :
    searched t last prev (before ++ r :: after) =
      ⟨before.getLast?.elim prev (BlockRec.status t), r.status t⟩ := by
  induction before generalizing prev with
  | nil =>
    rw [List.nil_append, searched_found (by rw [current]; exact List.lt_irrefl t)]
    rfl
  | cons x before ih =>
    obtain ⟨here, others⟩ := List.forall_mem_cons.mp inFront
    rw [List.cons_append, searched_below here, ih others, getLast?_elim_cons]

/-- What the search for the current key finds. -/
structure Found (g : UpdateGlobals) (buffaddr : ByteMemory) (r : BlockRec) (bh : SrchBlkStatus) : Prop where
  offset : bh.curr_rec.offset = r.offset
  whole : bh.curr_rec.match_ = g.gv_currkey.end_ + 1
  shared : bh.prev_rec.match_ = EVAL_CMPC buffaddr r.offset
  length : r.key.length = g.gv_currkey.end_ + 1
  key : g.keyFrom (EVAL_CMPC buffaddr r.offset) = r.key.drop (EVAL_CMPC buffaddr r.offset)

/-- The search finds the record. -/
theorem search_finds (block : WellFormedBlock g.blk_size buffaddr (before ++ r :: after) last)
    (leaf : levl buffaddr = 0) (target : WellFormedTarget g.gv_currkey)
    (current : r.key = g.gv_currkey.bytes) (room : MAX_KEY_SZ ≤ g.gv_altkey.top) :
    ∃ bh altkey, gvcst_search_blk g.blk_size g.expand_prev_key g.gv_altkey g.gv_currkey buffaddr =
      .ok (bh, altkey) ∧ Found g buffaddr r bh := by
  obtain ⟨record, _, _, inFront⟩ := Records.around (leaf_records block leaf)
  obtain ⟨altkey, result, _⟩ := @gvcst_search_blk_eq g.blk_size g.expand_prev_key g.gv_altkey
    g.gv_currkey buffaddr _ last block target room
  rw [searched_at (fun x member => current ▸ (inFront x member).2.2.2) current] at result
  refine ⟨_, altkey, result, ?_⟩
  have length : r.key.length = g.gv_currkey.end_ + 1 := by
    rw [current]
    exact ByteMemory.length_read
  refine ⟨rfl, ?_, ?_, length, ?_⟩
  · have whole : commonPrefix g.gv_currkey.bytes r.key = r.key.length := by
      rw [← current]
      exact commonPrefix_self _
    exact whole.trans length
  · have parts := (partsAt_commonPrefix record.order).commonPrefix_eq.2
    rw [record.cmpc, ← parts]
    unfold lastKey
    cases before.getLast? with
    | none =>
      cases r.key with
      | nil => rfl
      | cons _ _ => rfl
    | some x => exact congrArg (fun t => commonPrefix t x.key) current.symm
  · have inside : EVAL_CMPC buffaddr r.offset ≤ g.gv_currkey.end_ + 1 := by
      rw [record.cmpc, ← length]
      exact Nat.le_of_lt (partsAt_commonPrefix record.order).length_right
    have dropped := ByteMemory.read_drop g.gv_currkey.base 0 inside
    rw [Nat.zero_add] at dropped
    rw [current]
    exact dropped

end Search

/-! ## The update arrays -/

section Arrays

variable {g : UpdateGlobals} {buffaddr : ByteMemory} {before after : List BlockRec} {r : BlockRec}
variable {last : Nat} {bh : SrchBlkStatus} {value : List UInt8}

/-- The size of the record with its new value. -/
def newSize (buffaddr : ByteMemory) (r : BlockRec) (value : List UInt8) : Nat :=
  dataOffset buffaddr r + value.length

/-- The number of bytes behind a record. -/
def tailSize (buffaddr : ByteMemory) (r : BlockRec) : Nat :=
  bsiz buffaddr - (r.offset + rsiz buffaddr r.offset)

/-- The sizes around a record of a leaf. -/
structure Sizes (buffaddr : ByteMemory) (r : BlockRec) : Prop where
  header : SIZEOF_blk_hdr + EVAL_CMPC buffaddr r.offset ≤ r.offset
  shared : EVAL_CMPC buffaddr r.offset ≤ r.key.length
  data : dataOffset buffaddr r ≤ rsiz buffaddr r.offset
  tail : r.offset + rsiz buffaddr r.offset + tailSize buffaddr r = bsiz buffaddr

theorem sizes_of_block {blk_size : Nat}
    (block : WellFormedBlock blk_size buffaddr (before ++ r :: after) last) (leaf : levl buffaddr = 0) :
    Sizes buffaddr r := by
  have records := leaf_records block leaf
  obtain ⟨record, behind, _, _⟩ := Records.around records
  have room : SIZEOF_blk_hdr + (lastKey [] before).length ≤ r.offset :=
    Records.offset_ge records (Nat.le_refl _)
  have shared := commonPrefix_le (lastKey [] before) r.key
  have enough := record.size
  rw [← record.cmpc] at shared enough
  refine ⟨by omega, ?_, enough, ?_⟩
  · rw [record.cmpc]
    exact Nat.le_of_lt (partsAt_commonPrefix record.order).length_right
  · unfold tailSize
    exact Nat.add_sub_cancel' behind.le_top

/-- The segments that both functions use, up to an empty value. -/
def expectedSegments (g : UpdateGlobals) (buffaddr : ByteMemory) (r : BlockRec) (value : List UInt8) :
    List BlkSegment :=
  recordSegments r.offset (r.offset + rsiz buffaddr r.offset)
    (rec_hdr (newSize buffaddr r value) (EVAL_CMPC buffaddr r.offset) g.cmpc2)
    (r.key.drop (EVAL_CMPC buffaddr r.offset)) value (tailSize buffaddr r)

theorem incrementSegments_eq (found : Found g buffaddr r bh) (sizes : Sizes buffaddr r) :
    incrementSegments g bh (bsiz buffaddr) (rsiz buffaddr r.offset) (newSize buffaddr r value) value =
      expectedSegments g buffaddr r value := by
  have tail := sizes.tail
  have length : (bsiz buffaddr : Int) - (r.offset + rsiz buffaddr r.offset : Nat) = tailSize buffaddr r := by
    omega
  unfold incrementSegments expectedSegments recordSegments
  dsimp only
  rw [found.offset, found.shared, found.key, length]

/-- The segments of `gvcst_put2`, which leaves out an empty value. -/
def putSegments (g : UpdateGlobals) (buffaddr : ByteMemory) (r : BlockRec) (value : List UInt8) :
    List BlkSegment :=
  [.buffer SIZEOF_blk_hdr (r.offset - SIZEOF_blk_hdr),
      .array (rec_hdr (newSize buffaddr r value) (EVAL_CMPC buffaddr r.offset) g.cmpc2),
      .array (r.key.drop (EVAL_CMPC buffaddr r.offset))] ++
    (if value.length ≠ 0 then [.array value] else []) ++
    (if (tailSize buffaddr r : Int) > 0 then
      [.buffer (r.offset + rsiz buffaddr r.offset) (tailSize buffaddr r)] else [])

theorem placeSegments_eq (found : Found g buffaddr r bh) (sizes : Sizes buffaddr r) :
    placeSegments g bh (bsiz buffaddr) value false (rsiz buffaddr r.offset) (newSize buffaddr r value) 0 =
      .ok (putSegments g buffaddr r value) := by
  have tail := sizes.tail
  have length : (bsiz buffaddr : Int) - (r.offset + rsiz buffaddr r.offset : Nat) = tailSize buffaddr r := by
    omega
  unfold placeSegments putSegments
  dsimp only
  rw [found.offset, found.shared, found.key, if_neg Bool.false_ne_true, if_neg Bool.false_ne_true,
    if_neg Bool.false_ne_true, length]
  by_cases positive : (tailSize buffaddr r : Int) > 0
  · rw [if_pos positive, if_pos positive, if_neg (by omega), List.append_nil, Int.add_zero, Int.sub_zero,
      Int.toNat_natCast]
  · rw [if_neg positive, if_neg positive, List.append_nil]

/-- The length of the block that is built. -/
def newLength (buffaddr : ByteMemory) (r : BlockRec) (value : List UInt8) : Nat :=
  r.offset + newSize buffaddr r value + tailSize buffaddr r

theorem BLK_FINI_eq {segments : List BlkSegment} {blk_size len : Nat}
    (total : SIZEOF_blk_hdr + (segments.map BlkSegment.len).sum = (len : Int)) (fits : len ≤ blk_size)
    (least : SIZEOF_blk_hdr ≤ len) : BLK_FINI blk_size segments = some ⟨len, segments⟩ := by
  unfold BLK_FINI
  dsimp only
  rw [total, if_pos ⟨Int.ofNat_le.mpr fits, Int.ofNat_le.mpr least⟩, Int.toNat_natCast]

theorem expectedSegments_total (sizes : Sizes buffaddr r) :
    SIZEOF_blk_hdr + ((expectedSegments g buffaddr r value).map BlkSegment.len).sum =
      (newLength buffaddr r value : Int) := by
  have header := sizes.header
  unfold expectedSegments recordSegments newLength newSize dataOffset
  rw [List.map_append, List.sum_append]
  have tail : ((if (tailSize buffaddr r : Int) > 0 then [BlkSegment.buffer
      (r.offset + rsiz buffaddr r.offset) (tailSize buffaddr r)] else []).map BlkSegment.len).sum =
      (tailSize buffaddr r : Int) := by
    split
    · exact Int.add_zero _
    · simp
      omega
  rw [tail]
  simp only [List.map_cons, List.map_nil, List.sum_cons, List.sum_nil, BlkSegment.len, List.length_drop]
  unfold rec_hdr SIZEOF_rec_hdr
  simp only [List.length_cons, List.length_nil]
  omega

/-- The new value keeps the block within the fill limit. -/
def WithinFill (g : UpdateGlobals) (buffaddr : ByteMemory) (r : BlockRec) (value : List UInt8) : Prop :=
  bsiz buffaddr + growth buffaddr r value ≤ g.blk_fill_size

theorem newLength_eq (sizes : Sizes buffaddr r) :
    (newLength buffaddr r value : Int) = bsiz buffaddr + growth buffaddr r value := by
  have data := sizes.data
  have tail := sizes.tail
  unfold newLength growth newSize
  rw [length_recordData]
  omega

theorem fill_le (g : UpdateGlobals) (percent : g.gv_fillfactor ≤ 100) :
    g.blk_fill_size ≤ g.blk_reserved_size := by
  have part : g.blk_size * g.gv_fillfactor / 100 ≤ g.blk_size := by
    rw [Nat.div_le_iff_le_mul_add_pred (by decide)]
    have product := Nat.mul_le_mul_left g.blk_size percent
    omega
  unfold UpdateGlobals.blk_fill_size UpdateGlobals.blk_reserved_size
  omega

theorem newLength_le (sizes : Sizes buffaddr r) (percent : g.gv_fillfactor ≤ 100)
    (fill : WithinFill g buffaddr r value) : newLength buffaddr r value ≤ g.blk_size := by
  have limit := fill_le g percent
  have length : (newLength buffaddr r value : Int) = bsiz buffaddr + growth buffaddr r value :=
    newLength_eq sizes
  unfold WithinFill at fill
  unfold UpdateGlobals.blk_reserved_size at limit
  omega

theorem BLK_FINI_expected (sizes : Sizes buffaddr r) (percent : g.gv_fillfactor ≤ 100)
    (fill : WithinFill g buffaddr r value) :
    BLK_FINI g.blk_size (expectedSegments g buffaddr r value) =
      some ⟨newLength buffaddr r value, expectedSegments g buffaddr r value⟩ := by
  have header := sizes.header
  apply BLK_FINI_eq (expectedSegments_total sizes) (newLength_le sizes percent fill)
  unfold newLength
  omega

/-- The same update without the empty segment of an empty value. -/
theorem gvcst_put2_place_eq (found : Found g buffaddr r bh) (sizes : Sizes buffaddr r)
    (percent : g.gv_fillfactor ≤ 100) (plain : g.rc_set_fragment = 0)
    (fill : WithinFill g buffaddr r value) (new_blk_size_single : Int) :
    ∃ array, gvcst_put2_place g bh buffaddr value false (rsiz buffaddr r.offset) (newSize buffaddr r value)
        (newSize buffaddr r value - rsiz buffaddr r.offset) 0 new_blk_size_single = .ok (.update array) ∧
      ∀ cse ctn twin base_addr, gvcst_blk_build cse array ctn twin base_addr =
        gvcst_blk_build cse ⟨newLength buffaddr r value, expectedSegments g buffaddr r value⟩ ctn twin
          base_addr := by
  have built := BLK_FINI_expected sizes percent fill
  have within : (bsiz buffaddr : Int) + (newSize buffaddr r value - rsiz buffaddr r.offset) ≤
      g.blk_fill_size := by
    have length : (newLength buffaddr r value : Int) = bsiz buffaddr + growth buffaddr r value :=
      newLength_eq sizes
    have tail := sizes.tail
    unfold newLength at length
    unfold WithinFill at fill
    omega
  unfold gvcst_put2_place
  dsimp only
  rw [if_pos (.inl within), if_pos plain, placeSegments_eq found sizes]
  dsimp only
  by_cases empty : value = []
  · subst empty
    have total : SIZEOF_blk_hdr + ((putSegments g buffaddr r []).map BlkSegment.len).sum =
        (newLength buffaddr r [] : Int) := by
      rw [← @expectedSegments_total g buffaddr r [] sizes]
      unfold expectedSegments recordSegments putSegments
      simp [BlkSegment.len]
    have header := sizes.header
    rw [BLK_FINI_eq total (newLength_le sizes percent fill) (by unfold newLength; omega)]
    refine ⟨_, rfl, ?_⟩
    intro cse ctn twin base_addr
    exact (build_empty cse _ ctn _ [_, _] _).symm
  · have positive : value.length ≠ 0 := fun zero => empty (List.eq_nil_of_length_eq_zero zero)
    have same : putSegments g buffaddr r value = expectedSegments g buffaddr r value := by
      unfold putSegments
      rw [if_pos positive]
      rfl
    rw [same, built]
    exact ⟨_, rfl, fun _ _ _ _ => rfl⟩

/-- The update of `gvcst_put2`: no block is to be built for the value that is there, else the same block. -/
theorem gvcst_put2_leaf_eq (found : Found g buffaddr r bh) (sizes : Sizes buffaddr r)
    (percent : g.gv_fillfactor ≤ 100) (plain : g.rc_set_fragment = 0)
    (fill : WithinFill g buffaddr r value) :
    (gvcst_put2_leaf g bh buffaddr value = .ok .duplicateSet ∧ value = recordData buffaddr r) ∨
    ∃ array, gvcst_put2_leaf g bh buffaddr value = .ok (.update array) ∧
      ∀ cse ctn twin base_addr, gvcst_blk_build cse array ctn twin base_addr =
        gvcst_blk_build cse ⟨newLength buffaddr r value, expectedSegments g buffaddr r value⟩ ctn twin
          base_addr := by
  have header := sizes.header
  have shared := sizes.shared
  have data := sizes.data
  have tail := sizes.tail
  have length := found.length
  have sized : (SIZEOF_rec_hdr : Int) + (((g.gv_currkey.end_ + 1 : Nat) : Int) -
      (EVAL_CMPC buffaddr r.offset : Nat)) + value.length = (newSize buffaddr r value : Nat) := by
    unfold newSize dataOffset
    omega
  have notTop : r.offset ≠ bsiz buffaddr := by
    unfold dataOffset SIZEOF_rec_hdr at data
    omega
  have single : ¬ (SIZEOF_blk_hdr : Int) + SIZEOF_rec_hdr + ((g.gv_currkey.end_ + 1 : Nat) : Int) +
      value.length > g.blk_reserved_size := by
    have limit := fill_le g percent
    have total : (newLength buffaddr r value : Int) = bsiz buffaddr + growth buffaddr r value :=
      newLength_eq sizes
    unfold WithinFill at fill
    unfold newLength newSize dataOffset at total
    omega
  unfold gvcst_put2_leaf
  dsimp only
  rw [found.offset, found.whole, found.shared, if_neg notTop, if_neg notTop, if_neg single,
    if_neg (by omega), if_neg (fun different => different rfl), if_neg (fun different => different rfl), sized]
  split
  · rename_i duplicate
    obtain ⟨zero, _, same, _⟩ := duplicate
    refine .inl ⟨rfl, ?_⟩
    have place : ((r.offset : Int) + (newSize buffaddr r value : Nat) - value.length).toNat =
        r.offset + dataOffset buffaddr r := by
      unfold newSize
      omega
    have width : rsiz buffaddr r.offset - dataOffset buffaddr r = value.length := by
      unfold newSize at zero
      omega
    rw [place] at same
    unfold recordData
    rw [width, same]
  · exact .inr (gvcst_put2_place_eq found sizes percent plain fill _)

theorem gvincr_compute_post_incr_eq (found : Found g buffaddr r bh) (sizes : Sizes buffaddr r)
    (tg : ThreadGbl) (increment_delta_mval post_incr_mval : Mval) :
    gvincr_compute_post_incr tg increment_delta_mval post_incr_mval bh buffaddr =
      (incremented tg increment_delta_mval post_incr_mval (recordData buffaddr r)).mapError .rts := by
  have shared := sizes.shared
  have data := sizes.data
  have tail := sizes.tail
  have length := found.length
  have data_len : (rsiz buffaddr r.offset : Int) + EVAL_CMPC buffaddr r.offset - SIZEOF_rec_hdr -
      (g.gv_currkey.end_ + 1 : Nat) = (rsiz buffaddr r.offset - dataOffset buffaddr r : Nat) := by
    unfold dataOffset at data ⊢
    omega
  have place : ((r.offset : Int) + rsiz buffaddr r.offset -
      (rsiz buffaddr r.offset - dataOffset buffaddr r : Nat)).toNat = r.offset + dataOffset buffaddr r := by
    omega
  unfold gvincr_compute_post_incr
  dsimp only
  rw [found.offset, found.whole, data_len, if_neg (by omega), place, Int.toNat_natCast]
  rfl

end Arrays

/-! ## The recomputation -/

section Recomputation

variable {g : UpdateGlobals} {buffaddr : ByteMemory} {before after : List BlockRec} {r : BlockRec}
variable {last : Nat} {bh : SrchBlkStatus} {tg : ThreadGbl} {increment_delta_mval post_incr_mval : Mval}
variable {cr : CacheRec} {value : Mval}

/-- What is recomputed, with the search done. -/
theorem gvincr_recompute_upd_array_eq {altkey : KeyBuffer}
    (block : WellFormedBlock g.blk_size buffaddr (before ++ r :: after) last)
    (search : gvcst_search_blk g.blk_size g.expand_prev_key g.gv_altkey g.gv_currkey buffaddr =
      .ok (bh, altkey)) (found : Found g buffaddr r bh) (sizes : Sizes buffaddr r)
    (percent : g.gv_fillfactor ≤ 100) (plain : g.rc_set_fragment = 0) (read : cr.read_in_progress < 0)
    (idle : cr.in_tend = 0)
    (sum : incremented tg increment_delta_mval post_incr_mval (recordData buffaddr r) = .ok value)
    (fill : WithinFill g buffaddr r value.str) (before_image : Bool) :
    gvincr_recompute_upd_array g tg increment_delta_mval post_incr_mval (some cr) buffaddr before_image =
      .ok ⟨newLength buffaddr r value.str, expectedSegments g buffaddr r value.str⟩ := by
  have shared := sizes.shared
  have data := sizes.data
  have tail := sizes.tail
  have length := found.length
  have sized : (rsiz buffaddr r.offset : Int) - ((rsiz buffaddr r.offset : Int) +
      EVAL_CMPC buffaddr r.offset - SIZEOF_rec_hdr - (g.gv_currkey.end_ + 1 : Nat)) + value.str.length =
      (newSize buffaddr r value.str : Nat) := by
    unfold newSize
    unfold dataOffset at data ⊢
    omega
  have within : ¬ (bsiz buffaddr : Int) + ((newSize buffaddr r value.str : Nat) -
      (rsiz buffaddr r.offset : Int)) > g.blk_fill_size := by
    have total : (newLength buffaddr r value.str : Int) = bsiz buffaddr + growth buffaddr r value.str :=
      newLength_eq sizes
    unfold newLength at total
    unfold WithinFill at fill
    omega
  have fits : ¬ (before_image = true ∧ bsiz buffaddr > g.blk_size) := by
    intro both
    have upto := block.fits
    omega
  unfold gvincr_recompute_upd_array
  dsimp only
  rw [if_neg (by omega), if_neg (fun busy => busy idle), search]
  dsimp only
  rw [found.whole, if_neg (fun different => different rfl),
    gvincr_compute_post_incr_eq found sizes, sum]
  dsimp only [Except.mapError]
  rw [found.offset, sized, if_neg within, if_neg (fun fragment => fragment plain),
    incrementSegments_eq found sizes, BLK_FINI_expected sizes percent fill]
  exact if_neg fits

/-- The recomputation for a leaf with the current key makes an update array from which the same block is
built as from that of `gvcst_put2` for this value, unless the latter finds the value in place. The block is
well formed, the record has the value, and all other records are as they were. -/
theorem gvincr_recompute_upd_array_builds
    (block : WellFormedBlock g.blk_size buffaddr (before ++ r :: after) last) (leaf : levl buffaddr = 0)
    (target : WellFormedTarget g.gv_currkey) (current : r.key = g.gv_currkey.bytes)
    (room : MAX_KEY_SZ ≤ g.gv_altkey.top) (percent : g.gv_fillfactor ≤ 100) (plain : g.rc_set_fragment = 0)
    (read : cr.read_in_progress < 0) (idle : cr.in_tend = 0)
    (sum : incremented tg increment_delta_mval post_incr_mval (recordData buffaddr r) = .ok value)
    (fill : WithinFill g buffaddr r value.str) (before_image : Bool) :
    ∃ bh altkey array,
      gvcst_search_blk g.blk_size g.expand_prev_key g.gv_altkey g.gv_currkey buffaddr = .ok (bh, altkey) ∧
      gvincr_recompute_upd_array g tg increment_delta_mval post_incr_mval (some cr) buffaddr before_image =
        .ok array ∧
      ((gvcst_put2_leaf g bh buffaddr value.str = .ok .duplicateSet ∧ value.str = recordData buffaddr r) ∨
        ∃ put, gvcst_put2_leaf g bh buffaddr value.str = .ok (.update put) ∧
          ∀ cse ctn twin base_addr, gvcst_blk_build cse put ctn twin base_addr =
            gvcst_blk_build cse array ctn twin base_addr) ∧
      ∀ cse ctn twin base_addr, cse.level = 0 → cse.forward_process = false →
        (twin.isSome = true → cse.first_copy = true) → twin.getD base_addr = buffaddr →
        Replaced g.blk_size buffaddr (gvcst_blk_build cse array ctn twin base_addr) before r after last
          value.str := by
  obtain ⟨bh, altkey, search, found⟩ := search_finds block leaf target current room
  have sizes := sizes_of_block block leaf
  refine ⟨bh, altkey, _, search, gvincr_recompute_upd_array_eq block search found sizes percent plain read
    idle sum fill before_image, gvcst_put2_leaf_eq found sizes percent plain fill, ?_⟩
  intro cse ctn twin base_addr level backward copied source
  have header := sizes.header
  have upto := newLength_le sizes percent fill
  have small := block.small
  unfold MAX_DB_BLK_SIZE at small
  have width : (rec_hdr (newSize buffaddr r value.str) (EVAL_CMPC buffaddr r.offset) g.cmpc2 ++
      r.key.drop (EVAL_CMPC buffaddr r.offset) ++ value.str).length = newSize buffaddr r value.str := by
    unfold newSize dataOffset
    rw [List.length_append, List.length_append, List.length_drop]
    rfl
  have layout := @build_layout base_addr twin cse level backward copied r.offset
    (r.offset + rsiz buffaddr r.offset) (tailSize buffaddr r) ctn
    (rec_hdr (newSize buffaddr r value.str) (EVAL_CMPC buffaddr r.offset) g.cmpc2)
    (r.key.drop (EVAL_CMPC buffaddr r.offset)) value.str (by omega) (by omega)
    (by rw [width]; exact Nat.lt_of_le_of_lt upto (by omega))
  rw [width, source] at layout
  exact replaced_of_layout block leaf rfl sizes.tail upto layout

end Recomputation

/-- The string 42 and the number. -/
def fortyTwo : Mval := ⟨⟨true, true, true, false, false⟩, false, 0, 0, 42000, [0x34, 0x32]⟩

/-- The number 1. -/
def one : Mval := ⟨⟨true, true, false, false, false⟩, false, 0, 0, 1000, []⟩

/-- A leaf with the records `a="41"` and `ab`. -/
def leafToIncrement : ByteMemory := fun a =>
  [0, 0, 0, 0, 34, 0, 0, 0, 0, 0, 0, 0, 0, 0, 0, 0,
    9, 0, 0, 0, 0x61, 0, 0, 0x34, 0x31,
    9, 0, 1, 0, 0x62, 0, 0, 3, 4].getD a 0

/-- A key `^a` in blocks of 512 bytes. -/
def globalsToIncrement : UpdateGlobals :=
  ⟨512, 100, 0, 0, true, true, ⟨1023, 0, 0, fun _ => 0⟩, ⟨16, 2, 0, fun a => [0x61, 0, 0].getD a 0⟩, 0, 0⟩

theorem incremented_fortyOne : incremented ⟨false, false⟩ one one [0x34, 0x31] = .ok fortyTwo := by
  have sum : (incremented ⟨false, false⟩ one one [0x34, 0x31]).toOption = some fortyTwo := by
    decide +kernel
  cases result : incremented ⟨false, false⟩ one one [0x34, 0x31] with
  | error status =>
    rw [result] at sum
    cases sum
  | ok value =>
    rw [result] at sum
    exact congrArg Except.ok (Option.some.inj sum)

theorem leafToIncrement_wellFormed :
    WellFormedBlock 512 leafToIncrement ([] ++ ⟨16, [0x61, 0, 0]⟩ :: [⟨25, [0x61, 0x62, 0, 0]⟩]) 34 := by
  have first : WellFormedKey [0x61, 0, 0] :=
    ⟨by decide, [0x61], rfl, by simp [NotBothDelimiters, KEY_DELIMITER]⟩
  have second : WellFormedKey [0x61, 0x62, 0, 0] :=
    ⟨by decide, [0x61, 0x62], rfl, by simp [NotBothDelimiters, KEY_DELIMITER]⟩
  refine ⟨by decide, by decide, ?_⟩
  refine .record first (by decide) (by decide) (by decide) (by decide) (by decide) ?_
  refine .record second (by decide) (by decide) (by decide) (by decide) (by decide) ?_
  exact .top (by decide)

/-- An increment of 41 by one. -/
theorem gvincr_recompute_upd_array_builds_fortyTwo : ∃ bh altkey array,
    gvcst_search_blk 512 true ⟨1023, 0, 0, fun _ => 0⟩ globalsToIncrement.gv_currkey leafToIncrement =
      .ok (bh, altkey) ∧
    gvincr_recompute_upd_array globalsToIncrement ⟨false, false⟩ one one (some ⟨-1, 0⟩) leafToIncrement
      false = .ok array ∧
    ((gvcst_put2_leaf globalsToIncrement bh leafToIncrement fortyTwo.str = .ok .duplicateSet ∧
        fortyTwo.str = recordData leafToIncrement ⟨16, [0x61, 0, 0]⟩) ∨
      ∃ put, gvcst_put2_leaf globalsToIncrement bh leafToIncrement fortyTwo.str = .ok (.update put) ∧
        ∀ cse ctn twin base_addr, gvcst_blk_build cse put ctn twin base_addr =
          gvcst_blk_build cse array ctn twin base_addr) ∧
    ∀ cse ctn twin base_addr, cse.level = 0 → cse.forward_process = false →
      (twin.isSome = true → cse.first_copy = true) → twin.getD base_addr = leafToIncrement →
      Replaced 512 leafToIncrement (gvcst_blk_build cse array ctn twin base_addr) [] ⟨16, [0x61, 0, 0]⟩
        [⟨25, [0x61, 0x62, 0, 0]⟩] 34 fortyTwo.str := by
  have currkey : globalsToIncrement.gv_currkey.bytes = [0x61, 0, 0] := by decide
  have data : recordData leafToIncrement ⟨16, [0x61, 0, 0]⟩ = [0x34, 0x31] := by decide
  have sum := incremented_fortyOne
  rw [← data] at sum
  apply @gvincr_recompute_upd_array_builds globalsToIncrement _ _ _ _ _ _ _ _ _ fortyTwo leafToIncrement_wellFormed (by decide)
    ⟨?_, by decide⟩ currkey.symm (by decide) (by decide) rfl (by decide) rfl sum (by unfold WithinFill; decide)
  rw [currkey]
  exact ⟨by decide, [0x61], rfl, by simp [NotBothDelimiters, KEY_DELIMITER]⟩

end Ydb.BlockUpdate
