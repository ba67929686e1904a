import Ydb.BlockKill

/-!
# Searching the tree of a global

`gvcst_search` descends from the root to a leaf: in every index block it takes the first record that is not
below the key, the star record if there is none, and goes on in the child. `gvcst_rtsib` and `gvcst_lftsib`
go from the leaf of a search to the one beside it, up as far as they must and down the nearest children. From
these `gvcst_get2`, `gvcst_data2`, `gvcst_order2`, `gvcst_query2` and `gvcst_zprevious2` read the tree. The
blocks are those of one moment, so that no search has to be made again, and no clue is kept.
-/

namespace Ydb.GlobalTree

open Lib BlockUpdate

/-- What the functions read: the blocks of a database by their numbers. -/
structure Database where
  blk_size : Nat
  t_qread : Nat → ByteMemory

/-- The statuses other than `cdb_sc_normal`. -/
inductive CdbSc where
  | search (status : SearchSc)
  | maxlvl
  | badlvl
  | blklenerr
  | rmisalign
  | blkmod
  | keyoflow
  | mkblk
  | endtree
deriving DecidableEq, Repr

def MAX_BT_DEPTH : Nat := 7

def PREV_REC_UNINITIALIZED : Nat := 2 ^ 16 - 1

/-- A block of a history. A history begins with the leaf. -/
structure HistBlock where
  blk_num : Nat
  status : SrchBlkStatus
deriving DecidableEq, Repr

/-- Search one block. -/
def searchBlk (db : Database) (expand_prev_key : Bool) (gv_altkey pKey : KeyBuffer) (blk : Nat) :
    Except CdbSc (SrchBlkStatus × KeyBuffer) :=
  match gvcst_search_blk db.blk_size expand_prev_key gv_altkey pKey (db.t_qread blk) with
  | .error status => .error (.search status)
  | .ok result => .ok result

/-- The child of the record at an offset of an index block. -/
def childAt (buffaddr : ByteMemory) (offset : Nat) : Nat :=
  GET_BLK_ID buffaddr (offset + rsiz buffaddr offset - SIZEOF_block_id)

/-! ## The descent -/

/-- The status of an index block: that of the star record when the search is skipped. -/
def indexStatus (db : Database) (skip_search_blk : Bool) (gv_altkey pKey : KeyBuffer) (blk : Nat) :
    Except CdbSc SrchBlkStatus :=
  if skip_search_blk then
    .ok ⟨⟨PREV_REC_UNINITIALIZED, PREV_REC_UNINITIALIZED⟩, ⟨bsiz (db.t_qread blk) - BSTAR_REC_SIZE, 0⟩⟩
  else (searchBlk db false gv_altkey pKey blk).map Prod.fst

/-- Search from a block down to a leaf. -/
def searchFrom (db : Database) (skip_search_blk expand_prev_key : Bool) (gv_altkey pKey : KeyBuffer) :
    Nat → Nat → Except CdbSc (List HistBlock × KeyBuffer)
  | 0, nBlkId =>
    match searchBlk db expand_prev_key gv_altkey pKey nBlkId with
    | .error status => .error status
    | .ok (status, altkey) => .ok ([⟨nBlkId, status⟩], altkey)
  | nLevl + 1, nBlkId =>
    let pBlkBase := db.t_qread nBlkId
    match indexStatus db skip_search_blk gv_altkey pKey nBlkId with
    | .error status => .error status
    | .ok status =>
      let n0 := status.curr_rec.offset
      if n0 ≥ bsiz pBlkBase then .error .blklenerr
      else if n0 + rsiz pBlkBase n0 > bsiz pBlkBase then .error .rmisalign
      else if levl (db.t_qread (childAt pBlkBase n0)) ≠ nLevl then .error .badlvl
      else
        match searchFrom db skip_search_blk expand_prev_key gv_altkey pKey nLevl (childAt pBlkBase n0) with
        | .error status => .error status
        | .ok (hist, altkey) => .ok (hist ++ [⟨nBlkId, status⟩], altkey)

/-- A search without a clue: it starts at the root, whatever block the search before it has found. -/
def gvcst_search (db : Database) (skip_search_blk expand_prev_key : Bool) (gv_altkey pKey : KeyBuffer)
    (root : Nat) : Except CdbSc (List HistBlock × KeyBuffer) :=
  let nLevl := levl (db.t_qread root)
  if MAX_BT_DEPTH ≤ nLevl then .error .maxlvl
  else if nLevl = 0 then .error .badlvl
  else searchFrom db skip_search_blk expand_prev_key gv_altkey pKey nLevl root

/-! ## Siblings -/

/-- The first block above in which the search did not take the star record, its history behind the record, and
the number of levels that are passed. -/
def rightTurn (db : Database) (gv_altkey gv_currkey : KeyBuffer) : Nat → List HistBlock →
    Except CdbSc (HistBlock × Nat)
  | _, [] => .error .endtree
  | passed, old :: above =>
    match searchBlk db false gv_altkey gv_currkey old.blk_num with
    | .error status => .error status
    | .ok (status, _) =>
      let buffer_address := db.t_qread old.blk_num
      let temp_short := status.curr_rec.offset
      let rec_size := rsiz buffer_address temp_short
      if temp_short + rec_size > bsiz buffer_address then .error .rmisalign
      else if bsiz buffer_address > temp_short + rec_size then
        .ok (⟨old.blk_num, ⟨status.curr_rec, ⟨(temp_short + rec_size) % 2 ^ 16, 0⟩⟩⟩, passed)
      else rightTurn db gv_altkey gv_currkey (passed + 1) above

/-- The first children, from the record at `rp` of a block on. -/
def firstChildren (db : Database) : Nat → Nat → Nat → Except CdbSc (List HistBlock)
  | 0, _, _ => .ok []
  | levels + 1, blk_num, rp =>
    let buffer_address := db.t_qread blk_num
    if rp + rsiz buffer_address rp > bsiz buffer_address then .error .rmisalign
    else
      let blk := childAt buffer_address rp
      match firstChildren db levels blk SIZEOF_blk_hdr with
      | .error status => .error status
      | .ok below => .ok (below ++ [⟨blk, ⟨⟨0, 0⟩, ⟨SIZEOF_blk_hdr, 0⟩⟩⟩])

/-- `gvcst_rtsib` of a leaf. -/
def gvcst_rtsib (db : Database) (gv_altkey gv_currkey : KeyBuffer) (hist : List HistBlock) :
    Except CdbSc (List HistBlock) :=
  match rightTurn db gv_altkey gv_currkey 1 hist.tail with
  | .error status => .error status
  | .ok (turn, passed) =>
    if bsiz (db.t_qread turn.blk_num) < turn.status.curr_rec.offset then .error .rmisalign
    else
      match firstChildren db passed turn.blk_num turn.status.curr_rec.offset with
      | .error status => .error status
      | .ok below => .ok (below ++ [turn])

/-- The first block on the way up that has a record in front of the one of the search. -/
def leftTurn (db : Database) (gv_altkey gv_currkey : KeyBuffer) : Nat → SrchBlkStatus → Nat → List HistBlock →
    Except CdbSc (HistBlock × Nat)
  | blk_num, status, passed, above =>
    if status.prev_rec.offset > 0 then .ok (⟨blk_num, status⟩, passed)
    else
      match above with
      | [] => .error .endtree
      | old :: above =>
        match searchBlk db false gv_altkey gv_currkey old.blk_num with
        | .error status => .error status
        | .ok (status, _) => leftTurn db gv_altkey gv_currkey old.blk_num status (passed + 1) above

/-- The last children, from the record of a block that ends at `rtop` on. -/
def lastChildren (db : Database) : Nat → Nat → Nat → List Nat
  | 0, _, _ => []
  | levels + 1, blk_num, rtop =>
    let blk := GET_BLK_ID (db.t_qread blk_num) (rtop - SIZEOF_block_id)
    lastChildren db levels blk (bsiz (db.t_qread blk) % 2 ^ 16) ++ [blk]

/-- The blocks of `gvcst_lftsib`. -/
def gvcst_lftsib (db : Database) (gv_altkey gv_currkey : KeyBuffer) (hist : List HistBlock) :
    Except CdbSc (List Nat) :=
  match hist with
  | [] => .error .endtree
  | leaf :: above =>
    match leftTurn db gv_altkey gv_currkey leaf.blk_num leaf.status 0 above with
    | .error status => .error status
    | .ok (turn, passed) =>
      let bp := db.t_qread turn.blk_num
      let rtop := (turn.status.prev_rec.offset + rsiz bp turn.status.prev_rec.offset) % 2 ^ 16
      if bsiz bp < rtop then .error .rmisalign
      else .ok (lastChildren db passed turn.blk_num rtop ++ [turn.blk_num])

/-! ## Reading -/

/-- The leaf of a history. -/
def leafOf (hist : List HistBlock) : HistBlock := hist.headD ⟨0, ⟨⟨0, 0⟩, ⟨0, 0⟩⟩⟩

/-- The value at the key. -/
def gvcst_get2 (db : Database) (gv_altkey gv_currkey : KeyBuffer) (root : Nat) :
    Except CdbSc (Option (List UInt8)) :=
  match gvcst_search db false false gv_altkey gv_currkey root with
  | .error status => .error status
  | .ok (hist, _) =>
    let bh := leafOf hist
    let key_size := gv_currkey.end_ + 1
    if key_size = bh.status.curr_rec.match_ then
      let bp := db.t_qread bh.blk_num
      let rp := bh.status.curr_rec.offset
      let data_len : Int := rsiz bp rp + EVAL_CMPC bp rp - SIZEOF_rec_hdr - key_size
      if 0 > data_len ∨ rp + rsiz bp rp > bsiz bp then .error .rmisalign
      else .ok (some (bp.read (rp + rsiz bp rp - data_len.toNat) data_len.toNat))
    else .ok none

/-- The record that a search in the leaf or else in its right sibling has found. -/
def rightRecord (db : Database) (gv_altkey gv_currkey : KeyBuffer) (hist : List HistBlock) :
    Except CdbSc HistBlock :=
  match gvcst_rtsib db gv_altkey gv_currkey hist with
  | .error status => .error status
  | .ok rt_history =>
    let bh := leafOf rt_history
    match searchBlk db false gv_altkey gv_currkey bh.blk_num with
    | .error status => .error status
    | .ok (status, _) => .ok ⟨bh.blk_num, status⟩

/-- Ten more when the right sibling begins with a descendant of the key. -/
def countRight (db : Database) (gv_altkey gv_currkey : KeyBuffer) (hist : List HistBlock) (val : Int) :
    Except CdbSc Int :=
  match rightRecord db gv_altkey gv_currkey hist with
  | .error .endtree => .ok val
  | .error status => .error status
  | .ok bh => .ok (if bh.status.curr_rec.match_ ≥ gv_currkey.end_ then val + 10 else val)

/-- -1 in the place of what $DATA says, when the value is a dummy value. -/
def orDummy (is_dummy sn_disallowed : Bool) (val : Except CdbSc Int) : Except CdbSc Int :=
  val.map fun val => if is_dummy ∧ ¬ sn_disallowed then -1 else val

/-- What $DATA says of the key, or -1 for the dummy value of a spanning node. -/
def gvcst_data2 (db : Database) (sn_disallowed : Bool) (gv_altkey gv_currkey : KeyBuffer) (root : Nat) :
    Except CdbSc Int :=
  match gvcst_search db false false gv_altkey gv_currkey root with
  | .error status => .error status
  | .ok (hist, _) =>
    let bh := leafOf hist
    let bp := db.t_qread bh.blk_num
    let b_top := bsiz bp
    let rp := bh.status.curr_rec.offset
    let match_ := bh.status.curr_rec.match_
    if gv_currkey.end_ + 1 = match_ then
      let cur_val_offset : Int := SIZEOF_rec_hdr + match_ - EVAL_CMPC bp rp
      let is_dummy := IS_SN_DUMMY bp (rsiz bp rp - cur_val_offset) (rp + cur_val_offset).toNat
      let next := rp + rsiz bp rp
      if next > b_top then .error .rmisalign
      else if next = b_top then orDummy is_dummy sn_disallowed (countRight db gv_altkey gv_currkey hist 1)
      else orDummy is_dummy sn_disallowed (.ok (if EVAL_CMPC bp next ≥ gv_currkey.end_ then 11 else 1))
    else if match_ ≥ gv_currkey.end_ then .ok 10
    else if rp = b_top then countRight db gv_altkey gv_currkey hist 0
    else .ok 0

/-- Where the key or what comes behind it stands: the record of the leaf, or of its right sibling. -/
def currentRecord (db : Database) (gv_altkey gv_currkey : KeyBuffer) (hist : List HistBlock) :
    Except CdbSc (Option HistBlock) :=
  let bh := leafOf hist
  if bsiz (db.t_qread bh.blk_num) ≤ bh.status.curr_rec.offset then
    match rightRecord db gv_altkey gv_currkey hist with
    | .error .endtree => .ok none
    | .error status => .error status
    | .ok bh => .ok (some bh)
  else .ok (some bh)

/-- Copy up to a delimiter, and put a second one behind it. -/
def copySubscript (buffaddr : ByteMemory) (ctop alt_top : Nat) : Nat → Nat → Nat → ByteMemory →
    Option (ByteMemory × Nat)
  | 0, _, _, _ => none
  | turns + 1, c1, c2, base =>
    if c2 ≥ ctop ∨ c1 ≥ alt_top then none
    else
      let base := store base c1 (buffaddr c2)
      if buffaddr c2 = 0 then some (store base (c1 + 1) 0, c1 + 1)
      else copySubscript buffaddr ctop alt_top turns (c1 + 1) (c2 + 1) base

/-- The next subscript in `gv_altkey`, and whether it is one of the same node. -/
def gvcst_order2 (db : Database) (gv_altkey gv_currkey : KeyBuffer) (root : Nat) : Except CdbSc (Bool × KeyBuffer) :=
  match gvcst_search db false false gv_altkey gv_currkey root with
  | .error status => .error status
  | .ok (hist, _) =>
    match currentRecord db gv_altkey gv_currkey hist with
    | .error status => .error status
    | .ok none => .ok (false, gv_altkey)
    | .ok (some bh) =>
      let bp := db.t_qread bh.blk_num
      let rp := bh.status.curr_rec.offset
      let match_ := bh.status.curr_rec.match_
      let c2 := rp + SIZEOF_rec_hdr + match_ - EVAL_CMPC bp rp
      let base := gv_altkey.base.store 0 (gv_currkey.base.read 0 match_)
      match copySubscript bp (rp + rsiz bp rp) (gv_altkey.top - 1) (rsiz bp rp) match_ c2 base with
      | none => .error .rmisalign
      | some (base, end_) => .ok (match_ ≥ gv_currkey.prev, { gv_altkey with base := base, end_ := end_ })

/-- Copy up to two delimiters, the second of which is not yet passed. -/
def copyKey (buffaddr : ByteMemory) (dstTop : Nat) : Nat → Nat → Nat → ByteMemory → Option (ByteMemory × Nat)
  | 0, _, _, _ => none
  | turns + 1, dstEnd, src, base =>
    if dstEnd ≥ dstTop then none
    else
      let base := store base dstEnd (buffaddr src)
      if buffaddr src = KEY_DELIMITER ∧ buffaddr (src + 1) = KEY_DELIMITER then
        some (store base (dstEnd + 1) KEY_DELIMITER, dstEnd + 1)
      else copyKey buffaddr dstTop turns (dstEnd + 1) (src + 1) base

/-- The checks at the end of an expansion. -/
def expandedKey (exp_key : KeyBuffer) (base : ByteMemory) (dstEnd : Nat) : Except CdbSc KeyBuffer :=
  if base 0 = KEY_DELIMITER then .error .mkblk
  else
    let base := store (store base dstEnd KEY_DELIMITER) (dstEnd - 1) KEY_DELIMITER
    if base (dstEnd - 2) = KEY_DELIMITER then .error .mkblk
    else .ok { exp_key with base := base, end_ := dstEnd }

/-- The key of the current record, from the key of the search and the bytes of the record. -/
def gvcst_expand_curr_key (buffaddr : ByteMemory) (status : SrchBlkStatus) (srch_key exp_key : KeyBuffer) :
    Except CdbSc KeyBuffer :=
  let rp := status.curr_rec.offset
  let match_ := status.curr_rec.match_
  let tmpCmpc := EVAL_CMPC buffaddr rp
  let keyend := srch_key.end_
  if tmpCmpc > match_ then .error .blkmod
  else if match_ = keyend + 1 then
    if match_ ≥ exp_key.top then .error .keyoflow
    else expandedKey exp_key (exp_key.base.store 0 (srch_key.base.read 0 match_)) keyend
  else
    let copied :=
      if match_ > tmpCmpc ∧ srch_key.base (match_ - 1) = KEY_DELIMITER then match_ - 1 else match_
    if copied ≥ exp_key.top then .error .keyoflow
    else
      let base := exp_key.base.store 0 (srch_key.base.read 0 copied)
      let src := rp + SIZEOF_rec_hdr + (copied - tmpCmpc)
      match copyKey buffaddr (exp_key.top - 1) exp_key.top copied src base with
      | none => .error .keyoflow
      | some (base, dstEnd) => expandedKey exp_key base dstEnd

/-- The next node in `gv_altkey`. -/
def gvcst_query2 (db : Database) (gv_altkey gv_currkey : KeyBuffer) (root : Nat) : Except CdbSc (Bool × KeyBuffer) :=
  match gvcst_search db false false gv_altkey gv_currkey root with
  | .error status => .error status
  | .ok (hist, _) =>
    match currentRecord db gv_altkey gv_currkey hist with
    | .error status => .error status
    | .ok none => .ok (false, gv_altkey)
    | .ok (some bh) =>
      match gvcst_expand_curr_key (db.t_qread bh.blk_num) bh.status gv_currkey gv_altkey with
      | .error status => .error status
      | .ok altkey => .ok (true, altkey)

/-- The end of the subscript that the byte at `c` is in. -/
def subscriptEnd (base : ByteMemory) (ctop : Nat) : Nat → Nat → Option Nat
  | 0, _ => none
  | turns + 1, c => if c ≥ ctop then none else if base c = 0 then some (c + 1) else subscriptEnd base ctop turns (c + 1)

/-- Cut the previous key in `gv_altkey` behind the subscript in which it parts from the key. -/
def truncatePrev (gv_currkey : KeyBuffer) (found : Bool) (gv_altkey : KeyBuffer) (prev_rec_match : Nat) :
    Except CdbSc (Bool × KeyBuffer) :=
  if gv_altkey.end_ < gv_currkey.end_ ∧ gv_altkey.end_ ≤ gv_currkey.prev ∨ prev_rec_match < gv_currkey.prev then
    .ok (false, gv_altkey)
  else
    match subscriptEnd gv_altkey.base gv_altkey.end_ (gv_altkey.end_ + 1) prev_rec_match with
    | none => .error .rmisalign
    | some end_ => .ok (found, { gv_altkey with base := store gv_altkey.base end_ 0, end_ := end_ })

/-- The previous subscript in `gv_altkey`, and whether there is one. -/
def gvcst_zprevious2 (db : Database) (first_level_null : Bool) (gv_altkey gv_currkey : KeyBuffer) (root : Nat) :
    Except CdbSc (Bool × KeyBuffer) :=
  match gvcst_search db first_level_null true gv_altkey gv_currkey root with
  | .error status => .error status
  | .ok (hist, gv_altkey) =>
    let bh := leafOf hist
    if bh.status.prev_rec.offset = 0 then
      match gvcst_lftsib db gv_altkey gv_currkey hist with
      | .error .endtree => truncatePrev gv_currkey false gv_altkey bh.status.prev_rec.match_
      | .error status => .error status
      | .ok lft_history =>
        match searchBlk db true gv_altkey gv_currkey (lft_history.headD 0) with
        | .error status => .error status
        | .ok (status, gv_altkey) => truncatePrev gv_currkey true gv_altkey status.prev_rec.match_
    else truncatePrev gv_currkey true gv_altkey bh.status.prev_rec.match_

end Ydb.GlobalTree
