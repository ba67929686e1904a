import Ydb.BlockUpdate

/-!
# Killing records of a block

`gvcst_kill_blk` makes the update array that removes the records between two records of a block. The record
behind them gets back the bytes of its key that it shared with a removed one only. `gvcst_kill2` searches a
tree for the key and for the first key behind what is to be killed, and then goes up from the leaf; here are
its keys and its first step, when both searches end in one leaf. A ZKILL that finds a spanning node is left to
its caller.
-/

namespace Ydb.BlockUpdate

open Lib

/-- What comes of a kill in a block: nothing, a parent that loses this block, a root that becomes an empty
tree, a new block, or nothing yet because the node may be a spanning one. The numbers are those of the children
of an index block that are killed too. -/
inductive KillOutcome where
  | normal
  | deleteParent
  | killRoot (deleted : List Nat)
  | write (deleted : List Nat) (array : UpdateArray) (first_copy : Bool)
  | spanning

/-- The child of an index record, four bytes. -/
def GET_BLK_ID (buffaddr : ByteMemory) (a : Nat) : Nat :=
  (buffaddr a).toNat + 2 ^ 8 * (buffaddr (a + 1)).toNat + 2 ^ 16 * (buffaddr (a + 2)).toNat +
    2 ^ 24 * (buffaddr (a + 3)).toNat

/-- The children of the records from `rp` to `right_ptr`. -/
def deletedChildren (buffaddr : ByteMemory) (blk_size right_ptr : Nat) : Nat → Nat → Except UpdateError (List Nat)
  | 0, _ => .ok []
  | turns + 1, rp =>
    if rp < right_ptr then
      let rp1 := rp + rsiz buffaddr rp
      if rp1 < rp + SIZEOF_rec_hdr + SIZEOF_block_id ∨ rp1 > blk_size then .error .rmisalign
      else
        match deletedChildren buffaddr blk_size right_ptr turns rp1 with
        | .error status => .error status
        | .ok children => .ok (GET_BLK_ID buffaddr (rp1 - SIZEOF_block_id) :: children)
    else .ok []

/-- The bytes that the key of the record at `right_ptr` gets back, of the search key from the given base on and
of the record at `right_prev_ptr`. -/
structure Restored where
  targ_base : Nat
  targ_len : Nat
  prev_len : Nat

/-- How many bytes the record behind gets back. -/
def restoredBytes (buffaddr : ByteMemory) (right_prev_ptr right_ptr : Nat) (lmatch rmatch : Nat)
    (right_extra : Bool) : Restored :=
  let targ_base := if rmatch < lmatch then rmatch else lmatch
  if right_extra then
    let tmp_cmpc := EVAL_CMPC buffaddr right_prev_ptr
    let targ_len := tmp_cmpc - targ_base
    let cmpc := EVAL_CMPC buffaddr right_ptr
    if tmp_cmpc ≤ cmpc then ⟨targ_base, targ_len, cmpc - tmp_cmpc⟩
    else ⟨targ_base, targ_len - (tmp_cmpc - cmpc), 0⟩
  else ⟨targ_base, EVAL_CMPC buffaddr right_ptr - targ_base, 0⟩

/-- The segments in front of the killed records, and whether the first of them is new. When the last record of
an index block is killed, the record in front becomes the star record. -/
def frontSegments (buffaddr : ByteMemory) (level left_ptr del_ptr right_ptr : Nat) (cmpc2 : UInt8) :
    List BlkSegment × Bool :=
  if SIZEOF_blk_hdr < del_ptr then
    if right_ptr ≠ bsiz buffaddr ∨ level = 0 then ([.buffer SIZEOF_blk_hdr (del_ptr - SIZEOF_blk_hdr)], false)
    else
      let star : List BlkSegment := [.array (rec_hdr (SIZEOF_rec_hdr + SIZEOF_block_id) 0 cmpc2),
        .buffer (left_ptr + rsiz buffaddr left_ptr - SIZEOF_block_id) SIZEOF_block_id]
      if SIZEOF_blk_hdr < left_ptr then
        (.buffer SIZEOF_blk_hdr (left_ptr - SIZEOF_blk_hdr) :: star, false)
      else (star, true)
  else ([], true)

/-- The segments of the records behind. -/
def backSegments (buffaddr : ByteMemory) (search_key : KeyBuffer) (right_prev_ptr right_ptr : Nat)
    (restored : Restored) (cmpc2 : UInt8) : Except UpdateError (List BlkSegment) :=
  let top_of_block := bsiz buffaddr
  let next_rec_shrink := restored.targ_len + restored.prev_len
  if right_ptr = top_of_block then .ok []
  else if next_rec_shrink = 0 then .ok [.buffer right_ptr (top_of_block - right_ptr)]
  else
    let new_rec_hdr := rec_hdr (rsiz buffaddr right_ptr + next_rec_shrink)
      (EVAL_CMPC buffaddr right_ptr - next_rec_shrink) cmpc2
    let right_bytptr := right_ptr + SIZEOF_rec_hdr
    if right_bytptr < top_of_block then
      .ok ([.array new_rec_hdr] ++
        (if restored.targ_len ≠ 0 then [.array (search_key.base.read restored.targ_base restored.targ_len)]
          else []) ++
        (if restored.prev_len ≠ 0 then [.buffer (right_prev_ptr + SIZEOF_rec_hdr) restored.prev_len] else []) ++
        [.buffer right_bytptr (top_of_block - right_bytptr)])
    else .error .rmisalign

/-- `gvcst_kill_blk` outside of a transaction. The block has a parent unless it is the root; `star_cmpc2` and
`cmpc2` are the bytes that the update array holds where second bytes of compression counts will be. -/
def gvcst_kill_blk (blk_size : Nat) (buffaddr : ByteMemory) (hasParent : Bool) (level : Nat)
    (search_key : KeyBuffer) (low high : SrchRecStatus) (right_extra : Bool) (star_cmpc2 cmpc2 : UInt8) :
    Except UpdateError KillOutcome :=
  let first_in_blk := SIZEOF_blk_hdr
  let top_of_block := bsiz buffaddr
  let left_ptr := low.offset
  let right_prev_ptr := high.offset
  let right_ptr :=
    if right_extra ∧ high.offset < top_of_block then high.offset + rsiz buffaddr high.offset else high.offset
  let whole := left_ptr = 0 ∧ right_ptr = top_of_block
  let del_ptr := if left_ptr = 0 then first_in_blk else left_ptr + rsiz buffaddr left_ptr
  if low.offset = high.offset then .ok .normal
  else if right_ptr > top_of_block ∨ left_ptr ≥ right_ptr then .error .rmisalign
  else if whole ∧ first_in_blk = top_of_block then
    if level ≠ 0 then .error .rmisalign else .ok .normal
  else if whole ∧ hasParent then .ok .deleteParent
  else if left_ptr ≠ 0 ∧ (del_ptr ≤ left_ptr + SIZEOF_rec_hdr ∨ del_ptr > right_ptr) then .error .rmisalign
  else if del_ptr = right_ptr then .ok .normal
  else
    match if level ≠ 0 then deletedChildren buffaddr blk_size right_ptr (bsiz buffaddr) del_ptr else .ok [] with
    | .error status => .error status
    | .ok deleted =>
      if whole then .ok (.killRoot deleted)
      else if (SIZEOF_blk_hdr : Int) ≥ (bsiz buffaddr : Int) + (del_ptr - right_ptr : Int) then .error .rmisalign
      else
        let restored := restoredBytes buffaddr right_prev_ptr right_ptr low.match_ high.match_ right_extra
        let (front, first_copy) := frontSegments buffaddr level left_ptr del_ptr right_ptr star_cmpc2
        match backSegments buffaddr search_key right_prev_ptr right_ptr restored cmpc2 with
        | .error status => .error status
        | .ok back =>
          match BLK_FINI blk_size (front ++ back) with
          | none => .error .mkblk
          | some array => .ok (.write deleted array first_copy)

/-! ## The kill of a key -/

/-- The first key behind the key and its descendants, or behind the key alone. -/
def killAltKey (do_subtree : Bool) (gv_currkey gv_altkey : KeyBuffer) : KeyBuffer :=
  let end_ := gv_currkey.end_
  let base := gv_currkey.base
  if do_subtree then
    { gv_altkey with end_ := end_ + 1, base := store (store base (end_ - 1) 1) (end_ + 1) KEY_DELIMITER }
  else
    { gv_altkey with
      end_ := end_ + 2
      base := store (store (store base end_ 1) (end_ + 1) KEY_DELIMITER) (end_ + 2) KEY_DELIMITER }

def STR_SUB_MAXVAL : UInt8 := 0xff

/-- The key behind the chunks of a spanning node, from the key of the first of them. -/
def chunksAltKey (gv_currkey gv_altkey : KeyBuffer) : KeyBuffer :=
  let end_ := gv_currkey.end_
  { gv_altkey with
    end_ := end_
    base := store (store (store (store gv_currkey.base (end_ - 3) STR_SUB_MAXVAL) (end_ - 2) STR_SUB_MAXVAL)
      (end_ - 1) KEY_DELIMITER) end_ KEY_DELIMITER }

/-- Whether a value is the dummy value of a spanning node. -/
def IS_SN_DUMMY (buffaddr : ByteMemory) (len : Int) (addr : Nat) : Bool := len = 1 ∧ buffaddr addr = 0

/-- Whether the search has found the key with the dummy value. -/
def foundDummy (buffaddr : ByteMemory) (gv_currkey : KeyBuffer) (bh : SrchBlkStatus) : Bool :=
  let target_key_size := gv_currkey.end_ + 1
  let rp := bh.curr_rec.offset
  let cur_val_offset : Int := SIZEOF_rec_hdr + target_key_size - EVAL_CMPC buffaddr rp
  target_key_size = bh.curr_rec.match_ ∧
    IS_SN_DUMMY buffaddr (rsiz buffaddr rp - cur_val_offset) (rp + cur_val_offset).toNat

/-- The searches of `gvcst_kill2` and its step in the leaf outside of a transaction, when both end there.
`span_status` says whether the caller wants to know of a spanning node, `sn_disallowed` whether there can be
none in the database. -/
def gvcst_kill2_leaf (g : UpdateGlobals) (do_subtree span_status killing_chunks sn_disallowed : Bool)
    (buffaddr : ByteMemory) : Except UpdateError KillOutcome :=
  match gvcst_search_blk g.blk_size false g.gv_altkey g.gv_currkey buffaddr with
  | .error status => .error (.search status)
  | .ok (left, _) =>
    if !do_subtree && foundDummy buffaddr g.gv_currkey left && span_status && !sn_disallowed then .ok .spanning
    else
      let gv_altkey :=
        if !do_subtree && killing_chunks then chunksAltKey g.gv_currkey g.gv_altkey
        else killAltKey do_subtree g.gv_currkey g.gv_altkey
      match gvcst_search_blk g.blk_size false gv_altkey gv_altkey buffaddr with
      | .error status => .error (.search status)
      | .ok (right, _) =>
        gvcst_kill_blk g.blk_size buffaddr true 0 g.gv_currkey left.prev_rec right.curr_rec false g.cmpc2
          g.next_cmpc2

end Ydb.BlockUpdate
