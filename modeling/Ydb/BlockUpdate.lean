import Ydb.BlockSearch
import Ydb.Addition
import Ydb.NumberPrinting

/-!
# Updates of a leaf without a split

An update of a block is an array of segments, some in the buffer of the block and some new, from which
`gvcst_blk_build` makes the block anew. `gvcst_put2` makes the array for one record of a leaf. When the
leaf has changed in the meantime, `gvincr_recompute_upd_array` makes it again for `$INCREMENT`.
-/

namespace Ydb.BlockUpdate

open Lib

/-! ## Update arrays -/

def GDSVCURR : Nat := 1

/-- A segment of an update array. -/
inductive BlkSegment where
  | buffer (offset : Nat) (len : Int)
  | array (bytes : List UInt8)
deriving DecidableEq

def BlkSegment.len : BlkSegment → Int
  | .buffer _ len => len
  | .array bytes => bytes.length

/-- The segments and the length they make. -/
structure UpdateArray where
  len : Nat
  segments : List BlkSegment

/-- The array with the length of the block, if a block has such a length. -/
def BLK_FINI (blk_size : Nat) (segments : List BlkSegment) : Option UpdateArray :=
  let blk_seg_cnt : Int := SIZEOF_blk_hdr + (segments.map BlkSegment.len).sum
  if blk_seg_cnt ≤ blk_size ∧ SIZEOF_blk_hdr ≤ blk_seg_cnt then some ⟨blk_seg_cnt.toNat, segments⟩
  else none

/-- The two bytes of a compression count. The second one stays as it is when the first one is enough. -/
def SET_CMPC (cmpc2 : UInt8) (val : Nat) : UInt8 × UInt8 :=
  if 253 > val then (UInt8.ofNat val, cmpc2)
  else (UInt8.ofNat (253 + (val - 253) / 256), UInt8.ofNat ((val - 253) % 256))

/-- A record header, in memory whose last byte is `cmpc2`. -/
def rec_hdr (rsiz : Int) (cmpc : Nat) (cmpc2 : UInt8) : List UInt8 :=
  let size := (rsiz % 2 ^ 16).toNat
  let count := SET_CMPC cmpc2 cmpc
  [UInt8.ofNat size, UInt8.ofNat (size / 256), count.1, count.2]

/-- The fields of a block header from `bver` to `tn`. -/
def storeHeader (base_addr : ByteMemory) (level len ctn : Nat) : ByteMemory :=
  ((((base_addr.store 0 [UInt8.ofNat GDSVCURR, 0]).store 3 [UInt8.ofNat level]).store 4
    ((List.range 4).map fun i => UInt8.ofNat (len / 256 ^ i))).store 8
    ((List.range 8).map fun i => UInt8.ofNat (ctn / 256 ^ i)))

/-- Where the segments of the buffer are: in the block that is built, or in another buffer that has to be
copied. -/
abbrev Twin := Option ByteMemory

/-- `memmove` of a segment to `ptr`. -/
def BlkSegment.memmove (seg : BlkSegment) (twin : Twin) (ptr : Nat) (base_addr : ByteMemory) : ByteMemory :=
  match seg with
  | .array bytes => base_addr.store ptr bytes
  | .buffer offset len => base_addr.store ptr ((twin.getD base_addr).read offset len.toNat)

/-- Copy the segments in order. -/
def buildForward (twin : Twin) : List BlkSegment → Nat → ByteMemory → ByteMemory
  | [], _, base_addr => base_addr
  | seg :: segments, ptr, base_addr =>
    buildForward twin segments (ptr + seg.len.toNat) (seg.memmove twin ptr base_addr)

/-- From the last segment on, which is the first one here. -/
def buildBackward (twin : Twin) : List BlkSegment → Nat → ByteMemory → ByteMemory
  | [], _, base_addr => base_addr
  | seg :: segments, ptr, base_addr =>
    let ptr := ptr - seg.len.toNat
    buildBackward twin segments ptr (seg.memmove twin ptr base_addr)

/-- What `gvcst_blk_build` reads of a cw-set element. -/
structure CwSetElement where
  level : Nat
  first_copy : Bool
  forward_process : Bool

/-- Build the block from its update array. -/
def gvcst_blk_build (cse : CwSetElement) (array : UpdateArray) (ctn : Nat) (twin : Twin)
    (base_addr : ByteMemory) : ByteMemory :=
  let base_addr := storeHeader base_addr cse.level array.len ctn
  let segments := if cse.first_copy then array.segments else array.segments.tail
  if cse.forward_process then
    let ptr :=
      if cse.first_copy then SIZEOF_blk_hdr
      else SIZEOF_blk_hdr + ((array.segments.map BlkSegment.len).headD 0).toNat
    buildForward twin segments ptr base_addr
  else buildBackward twin segments.reverse array.len base_addr

/-! ## Setting a record -/

/-- Why no update array is made. -/
inductive UpdateError where
  | search (status : SearchSc)
  | lostcr
  | blkmod
  | blksplit
  | mkblk
  | rmisalign
  | rsvdbyte2high
  | rts (error : RtsError)

/-- The globals of an update. `cmpc2` and `next_cmpc2` are the bytes that the update array holds where the
second bytes of the compression counts will be. -/
structure UpdateGlobals where
  blk_size : Nat
  gv_fillfactor : Nat
  reserved_bytes : Nat
  rc_set_fragment : Nat
  gvdupsetnoop : Bool
  expand_prev_key : Bool
  gv_altkey : KeyBuffer
  gv_currkey : KeyBuffer
  cmpc2 : UInt8
  next_cmpc2 : UInt8

variable (g : UpdateGlobals)

/-- How far a block is filled. -/
def UpdateGlobals.blk_fill_size : Int := (g.blk_size * g.gv_fillfactor / 100 : Nat) - g.reserved_bytes

/-- How far a block can be filled. -/
def UpdateGlobals.blk_reserved_size : Int := g.blk_size - g.reserved_bytes

/-- The bytes of the key from `offset` on. -/
def UpdateGlobals.keyFrom (offset : Nat) : List UInt8 :=
  g.gv_currkey.base.read offset (g.gv_currkey.end_ + 1 - offset)

/-- What an update of a leaf comes to. -/
inductive PutOutcome where
  | duplicateSet
  | update (array : UpdateArray)
  | split

/-- The segments of `gvcst_put2` that update a block in place: the block in front of the record, the
record, and what stands behind it. -/
def placeSegments (bh : SrchBlkStatus) (cur_blk_size : Nat) (value : List UInt8) (new_rec : Bool)
    (rec_size : Nat) (new_rec_size next_rec_shrink : Int) : Except UpdateError (List BlkSegment) :=
  let rp := bh.curr_rec.offset
  let front :=
    [.buffer SIZEOF_blk_hdr (rp - SIZEOF_blk_hdr), .array (rec_hdr new_rec_size bh.prev_rec.match_ g.cmpc2),
      .array (g.keyFrom bh.prev_rec.match_)] ++ (if value.length ≠ 0 then [.array value] else [])
  let rp := if new_rec then rp else rp + rec_size
  let n : Int := cur_blk_size - rp
  if n > 0 then
    let next := if new_rec then [.array (rec_hdr (rec_size - next_rec_shrink) bh.curr_rec.match_ g.next_cmpc2)]
      else []
    let next_rec_shrink := if new_rec then next_rec_shrink + SIZEOF_rec_hdr else next_rec_shrink
    if n < next_rec_shrink then .error .mkblk
    else .ok (front ++ next ++ [.buffer (rp + next_rec_shrink).toNat (n - next_rec_shrink)])
  else .ok front

/-- Its segments that set a fragment of the value. -/
def fragmentSegments (bh : SrchBlkStatus) (buffaddr : ByteMemory) (cur_blk_size : Nat)
    (value : List UInt8) : List BlkSegment :=
  let curr_rec_hdr := bh.curr_rec.offset
  let key : Int := g.gv_currkey.end_ + 1 - EVAL_CMPC buffaddr curr_rec_hdr
  let n : Int := cur_blk_size - curr_rec_hdr - SIZEOF_rec_hdr - key - g.rc_set_fragment - value.length
  [.buffer SIZEOF_blk_hdr (curr_rec_hdr - SIZEOF_blk_hdr + SIZEOF_rec_hdr + g.rc_set_fragment + key),
      .array value] ++
    (if 0 < n then [.buffer (curr_rec_hdr + key + g.rc_set_fragment + value.length).toNat n] else [])

/-- The end of the update when the size of the record is known. -/
def gvcst_put2_place (bh : SrchBlkStatus) (buffaddr : ByteMemory) (value : List UInt8) (new_rec : Bool)
    (rec_size : Nat) (new_rec_size delta next_rec_shrink new_blk_size_single : Int) :
    Except UpdateError PutOutcome :=
  let cur_blk_size := bsiz buffaddr
  let new_blk_size := cur_blk_size + delta
  if new_blk_size ≤ g.blk_fill_size ∨ new_blk_size ≤ new_blk_size_single then
    let segments :=
      if g.rc_set_fragment = 0 then
        placeSegments g bh cur_blk_size value new_rec rec_size new_rec_size next_rec_shrink
      else .ok (fragmentSegments g bh buffaddr cur_blk_size value)
    match segments with
    | .error status => .error status
    | .ok segments =>
      match BLK_FINI g.blk_size segments with
      | none => .error .mkblk
      | some array => .ok (.update array)
  else .ok .split

/-- `gvcst_put2` at the leaf, outside of a transaction and without triggers, from behind the search and the test for
the dummy value of a spanning node (`gvcst_put.c` 989 to 1038). -/
def gvcst_put2_leaf (bh : SrchBlkStatus) (buffaddr : ByteMemory) (value : List UInt8) :
    Except UpdateError PutOutcome :=
  let cur_blk_size := bsiz buffaddr
  let target_key_size := g.gv_currkey.end_ + 1
  let new_blk_size_single : Int := SIZEOF_blk_hdr + SIZEOF_rec_hdr + target_key_size + value.length
  let rp := bh.curr_rec.offset
  let rec_size := if rp = cur_blk_size then 0 else rsiz buffaddr rp
  let rec_cmpc := if rp = cur_blk_size then 0 else EVAL_CMPC buffaddr rp
  if new_blk_size_single > g.blk_reserved_size then .error .rsvdbyte2high
  else if rp ≠ cur_blk_size ∧ rp + rec_size > cur_blk_size then .error .mkblk
  else if target_key_size ≠ bh.curr_rec.match_ then
    let new_rec_size : Int := SIZEOF_rec_hdr + target_key_size - bh.prev_rec.match_ + value.length
    let next_rec_shrink : Int := if cur_blk_size ≤ rp then 0 else bh.curr_rec.match_ - rec_cmpc
    gvcst_put2_place g bh buffaddr value true rec_size new_rec_size (new_rec_size - next_rec_shrink)
      next_rec_shrink new_blk_size_single
  else if rec_cmpc ≠ bh.prev_rec.match_ then .error .mkblk
  else
    let cur_val_offset : Int := SIZEOF_rec_hdr + (target_key_size - rec_cmpc)
    let new_rec_size : Int := cur_val_offset + value.length
    let delta := new_rec_size - rec_size
    if delta = 0 ∧ value.length ≠ 0 ∧
        buffaddr.read (rp + new_rec_size - value.length).toNat value.length = value ∧ g.gvdupsetnoop then
      .ok .duplicateSet
    else
      gvcst_put2_place g bh buffaddr value false rec_size new_rec_size delta 0 new_blk_size_single

/-! ## Incrementing a record -/

def MV_FORCE_STR (v : Mval) : Mval := if v.mvtype.str then v else n2s v

/-- The value that `$INCREMENT` gives a string. -/
def incremented (tg : ThreadGbl) (increment_delta_mval post_incr_mval : Mval) (data : List UInt8) :
    Except RtsError Mval :=
  let pre_incr_mval : Mval := ⟨⟨false, false, true, false, false⟩, false, 0, 0, 0, data⟩
  (op_add tg pre_incr_mval increment_delta_mval post_incr_mval).map MV_FORCE_STR

/-- Add the increment to the value found. -/
def gvincr_compute_post_incr (tg : ThreadGbl) (increment_delta_mval post_incr_mval : Mval)
    (bh : SrchBlkStatus) (buffaddr : ByteMemory) : Except UpdateError Mval :=
  let rp := bh.curr_rec.offset
  let rec_size := rsiz buffaddr rp
  let target_key_size := bh.curr_rec.match_
  let data_len : Int := rec_size + EVAL_CMPC buffaddr rp - SIZEOF_rec_hdr - target_key_size
  if 0 > data_len ∨ rp + rec_size > bsiz buffaddr then .error .rmisalign
  else
    (incremented tg increment_delta_mval post_incr_mval
      (buffaddr.read (rp + rec_size - data_len).toNat data_len.toNat)).mapError .rts

/-- What is read of a cache record. -/
structure CacheRec where
  read_in_progress : Int
  in_tend : Nat

/-- The segments of the recomputation. -/
def incrementSegments (bh : SrchBlkStatus) (cur_blk_size rec_size : Nat) (new_rec_size : Int)
    (value : List UInt8) : List BlkSegment :=
  let rp := bh.curr_rec.offset + rec_size
  let tail_len : Int := cur_blk_size - rp
  [.buffer SIZEOF_blk_hdr (bh.curr_rec.offset - SIZEOF_blk_hdr),
      .array (rec_hdr new_rec_size bh.prev_rec.match_ g.cmpc2), .array (g.keyFrom bh.prev_rec.match_),
      .array value] ++
    (if tail_len > 0 then [.buffer rp tail_len] else [])

/-- `gvincr_recompute_upd_array`; there is no cache record where it is null or not valid. The last
argument says whether the checksum of a before-image is needed. -/
def gvincr_recompute_upd_array (tg : ThreadGbl) (increment_delta_mval post_incr_mval : Mval)
    (cr : Option CacheRec) (buffaddr : ByteMemory) (before_image : Bool) :
    Except UpdateError UpdateArray :=
  match cr with
  | none => .error .lostcr
  | some cr =>
    if 0 ≤ cr.read_in_progress then .error .lostcr
    else if cr.in_tend ≠ 0 then .error .blkmod
    else
      match gvcst_search_blk g.blk_size g.expand_prev_key g.gv_altkey g.gv_currkey buffaddr with
      | .error status => .error (.search status)
      | .ok (bh, _) =>
        let target_key_size := g.gv_currkey.end_ + 1
        if target_key_size ≠ bh.curr_rec.match_ then .error .blkmod
        else
          let cur_blk_size := bsiz buffaddr
          let rp := bh.curr_rec.offset
          let rec_size := rsiz buffaddr rp
          let data_len : Int := rec_size + EVAL_CMPC buffaddr rp - SIZEOF_rec_hdr - target_key_size
          match gvincr_compute_post_incr tg increment_delta_mval post_incr_mval bh buffaddr with
          | .error status => .error status
          | .ok post_incr_mval =>
            let value := post_incr_mval.str
            let new_rec_size := rec_size - data_len + value.length
            let delta := new_rec_size - rec_size
            if cur_blk_size + delta > g.blk_fill_size then .error .blksplit
            else if g.rc_set_fragment ≠ 0 then .error .mkblk
            else
              match BLK_FINI g.blk_size (incrementSegments g bh cur_blk_size rec_size new_rec_size value) with
              | none => .error .mkblk
              | some array =>
                if before_image ∧ cur_blk_size > g.blk_size then .error .mkblk else .ok array

end Ydb.BlockUpdate
