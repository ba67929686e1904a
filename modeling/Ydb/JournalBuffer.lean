import Mathlib.Algebra.Group.Nat.Defs
import Ydb.Lib.RingMemory
import Ydb.StringPool

/-!
# Writing a journal record in the journal buffer

The journal buffer is a ring of bytes; the byte at address `a` of the journal file has the
place `a % size`. A record is copied in one, two or three pieces and a suffix. When it does
not reach over the end of the buffer each piece is copied at once, otherwise each piece goes
around the end by itself.
-/

namespace Ydb.JournalBuffer

open Lib

/-- The types of journal records. -/
inductive jnl_record_type where
  | JRT_BAD | JRT_PINI | JRT_PFIN | JRT_ZTCOM | JRT_KILL | JRT_FKILL | JRT_GKILL | JRT_SET | JRT_FSET
  | JRT_GSET | JRT_PBLK | JRT_EPOCH | JRT_EOF | JRT_TKILL | JRT_UKILL | JRT_TSET | JRT_USET | JRT_TCOM
  | JRT_ALIGN | JRT_NULL | JRT_ZKILL | JRT_FZKILL | JRT_GZKILL | JRT_TZKILL | JRT_UZKILL | JRT_INCTN
  | JRT_AIMG | JRT_TRIPLE | JRT_TZTWORM | JRT_UZTWORM | JRT_TZTRIG | JRT_UZTRIG | JRT_HISTREC
  | JRT_TRUNC | JRT_TLGTRIG | JRT_ULGTRIG
deriving DecidableEq, Repr

open jnl_record_type

/-- Whether records of the type have one size. -/
def jrt_fixed_size : jnl_record_type → Bool
  | JRT_PINI | JRT_PFIN | JRT_ZTCOM | JRT_EPOCH | JRT_EOF | JRT_TCOM | JRT_NULL | JRT_INCTN | JRT_TRIPLE
  | JRT_HISTREC | JRT_TRUNC => true
  | _ => false

def JREC_SUFFIX_SIZE : Nat := 4

def JNL_REC_START_BNDRY : Nat := 8

def JNL_REC_SUFFIX_CODE : UInt8 := 0xEB

/-- The fields before the block image: the prefix, `blknum`, `bsiz`, `ondsk_blkver`, `cmdstrlen`. -/
def FIXED_BLK_RECLEN : Nat := 40

def FIXED_ALIGN_RECLEN : Nat := 12

def MIN_ALIGN_RECLEN : Nat := FIXED_ALIGN_RECLEN + JREC_SUFFIX_SIZE

def EOF_RECLEN : Nat := 40

section Fields

variable (jnl_rec : ByteMemory)

/-- A four-byte word of the record. -/
def uint4At (offset : Nat) : Nat :=
  (jnl_rec offset).toNat + 256 * (jnl_rec (offset + 1)).toNat + 65536 * (jnl_rec (offset + 2)).toNat +
    16777216 * (jnl_rec (offset + 3)).toNat

/-- The length of the record, 24 bits behind its type. -/
def forwptr : Nat := uint4At jnl_rec 0 / 256

/-- `blksize` of a PBLK or AIMG record. -/
def bsiz : Nat := uint4At jnl_rec 28

/-- `cmdstrlen` of a LGTRIG record. -/
def cmdstrlen : Nat := uint4At jnl_rec 36

end Fields

/-- The bytes of a suffix: 24 bits of length, and the code. -/
def jrec_suffix (backptr : Nat) : List UInt8 :=
  [UInt8.ofNat backptr, UInt8.ofNat (backptr / 256), UInt8.ofNat (backptr / 65536), JNL_REC_SUFFIX_CODE]

/-- The fields of the journal buffer that are read. The size of a block of the file system is
a power of two, not less than 512, and the size of the buffer is an `int4`. -/
structure jnl_buffer where
  size : Nat
  fs_block_size : Nat
  size_pos : 0 < size
  size_lt : size < 2 ^ 31
  fs_block_power : ∃ m, fs_block_size = 2 ^ (9 + m)
  fs_block_dvd : fs_block_size ∣ size

/-! ## Copying -/

/-- The buffer, and the offset in it where the next byte goes. -/
structure Copy where
  lcl_buff : ByteMemory
  lcl_free : Nat

/-- Copy `len` bytes to `target`. -/
def memcpy (lcl_buff : ByteMemory) (target : Nat) (src : ByteMemory) (len : Nat) : ByteMemory :=
  lcl_buff.store target (src.read 0 len)

/-- Copy a piece, around the end of the buffer if it reaches over. -/
def JNL_PUTSTR (s : Copy) (src : ByteMemory) (len lcl_size : Nat) : Copy :=
  let size_before_wrap := lcl_size - s.lcl_free
  if len ≤ size_before_wrap then
    { lcl_buff := memcpy s.lcl_buff s.lcl_free src len
      lcl_free := if len = size_before_wrap then 0 else s.lcl_free + len }
  else
    let lcl_buff := memcpy s.lcl_buff s.lcl_free src size_before_wrap
    let lcl_free := len - size_before_wrap
    { lcl_buff := memcpy lcl_buff 0 (fun i => src (size_before_wrap + i)) lcl_free
      lcl_free := lcl_free }

/-- Copy a piece of a record that does not reach over the end. -/
def putNowrap (s : Copy) (src : ByteMemory) (len : Nat) : Copy :=
  { lcl_buff := memcpy s.lcl_buff s.lcl_free src len
    lcl_free := s.lcl_free + len }

/-- The next offset, which is zero at the end of the buffer. -/
def wrapAtEnd (s : Copy) (lcl_size : Nat) : Copy :=
  if lcl_size = s.lcl_free then { s with lcl_free := 0 } else s

/-- Copy a whole record, either of fixed size or already formatted. -/
def putRecord (s : Copy) (src : ByteMemory) (rlen lcl_size : Nat) (nowrap : Bool) : Copy :=
  if nowrap then wrapAtEnd (putNowrap s src rlen) lcl_size
  else JNL_PUTSTR s src rlen lcl_size

/-- Zeros behind the last record, up to a boundary of the file system. -/
def padEof (s : Copy) (jnl_fs_block_size : Nat) : Copy :=
  let aligned_lcl_free := ROUND_UP2 s.lcl_free jnl_fs_block_size
  let padding_size := aligned_lcl_free - s.lcl_free
  if padding_size ≠ 0 then
    { s with lcl_buff := s.lcl_buff.store s.lcl_free (List.replicate padding_size 0) }
  else s

/-- The pieces of a block record, before its suffix. -/
def putBlock (s : Copy) (is_aimg : Bool) (jnl_rec blk_ptr in_str : ByteMemory) (lcl_size : Nat)
    (nowrap : Bool) : Copy :=
  if nowrap then
    let s := putNowrap s jnl_rec FIXED_BLK_RECLEN
    let s := putNowrap s blk_ptr (bsiz jnl_rec)
    if is_aimg then putNowrap s in_str (cmdstrlen jnl_rec) else s
  else
    let s := JNL_PUTSTR s jnl_rec FIXED_BLK_RECLEN lcl_size
    let s := JNL_PUTSTR s blk_ptr (bsiz jnl_rec) lcl_size
    if is_aimg then JNL_PUTSTR s in_str (cmdstrlen jnl_rec) lcl_size else s

/-- Skip the bytes up to the boundary of a record, and write the suffix before it. -/
def putBlockSuffix (s : Copy) (rlen lcl_size : Nat) : Copy :=
  let lcl_free := ROUND_UP2 (s.lcl_free + JREC_SUFFIX_SIZE) JNL_REC_START_BNDRY
  let lcl_free := if lcl_size < lcl_free then JNL_REC_START_BNDRY else lcl_free
  wrapAtEnd
    { lcl_buff := s.lcl_buff.store (lcl_free - JREC_SUFFIX_SIZE) (jrec_suffix rlen)
      lcl_free := lcl_free } lcl_size

/-- An alignment record up to its suffix; the filler is skipped. -/
def putAlign (s : Copy) (jrec_align : ByteMemory) (rlen lcl_size : Nat) (nowrap : Bool) : Copy :=
  let align_filler_len := rlen - MIN_ALIGN_RECLEN
  if nowrap then
    { lcl_buff := memcpy s.lcl_buff s.lcl_free jrec_align FIXED_ALIGN_RECLEN
      lcl_free := s.lcl_free + (FIXED_ALIGN_RECLEN + align_filler_len) }
  else
    let s := JNL_PUTSTR s jrec_align FIXED_ALIGN_RECLEN lcl_size
    let lcl_free := s.lcl_free + align_filler_len
    { s with lcl_free := if lcl_size ≤ lcl_free then lcl_free - lcl_size else lcl_free }

/-- The suffix of an ALIGN record. -/
def putAlignSuffix (s : Copy) (rlen lcl_size : Nat) : Copy :=
  wrapAtEnd
    { lcl_buff := s.lcl_buff.store s.lcl_free (jrec_suffix rlen)
      lcl_free := s.lcl_free + JREC_SUFFIX_SIZE } lcl_size

/-- The part of `jnl_write` that copies the record into the buffer. `parm1` is the block image
or the formatted record, `in_str` is the command line. -/
def jnl_write (jb : jnl_buffer) (s : Copy) (rectype : jnl_record_type) (jnl_rec parm1 in_str : ByteMemory) :
    Copy :=
  let rlen := forwptr jnl_rec
  let lcl_size := jb.size
  let nowrap := decide (s.lcl_free + rlen ≤ lcl_size)
  if jrt_fixed_size rectype then
    let s := putRecord s jnl_rec rlen lcl_size nowrap
    if rectype = JRT_EOF then padEof s jb.fs_block_size else s
  else
    match rectype with
    | JRT_PBLK => putBlockSuffix (putBlock s false jnl_rec parm1 in_str lcl_size nowrap) rlen lcl_size
    | JRT_AIMG => putBlockSuffix (putBlock s true jnl_rec parm1 in_str lcl_size nowrap) rlen lcl_size
    | JRT_ALIGN => putAlignSuffix (putAlign s jnl_rec rlen lcl_size nowrap) rlen lcl_size
    | _ => putRecord s parm1 rlen lcl_size nowrap

/-! ## The record -/

/-- The bytes before the suffix of a block record. -/
def blockPieces (is_aimg : Bool) (jnl_rec blk_ptr in_str : ByteMemory) : List UInt8 :=
  jnl_rec.read 0 FIXED_BLK_RECLEN ++ blk_ptr.read 0 (bsiz jnl_rec) ++
    if is_aimg then in_str.read 0 (cmdstrlen jnl_rec) else []

/-- The length is the one that the type, the sizes of the block and of the command line give. -/
def RecordLength (rectype : jnl_record_type) (jnl_rec : ByteMemory) : Prop :=
  8 ∣ forwptr jnl_rec ∧
    match rectype with
    | JRT_EOF => forwptr jnl_rec = EOF_RECLEN
    | JRT_PBLK =>
      forwptr jnl_rec = ROUND_UP2 (FIXED_BLK_RECLEN + bsiz jnl_rec + JREC_SUFFIX_SIZE) JNL_REC_START_BNDRY
    | JRT_AIMG =>
      forwptr jnl_rec =
        ROUND_UP2 (FIXED_BLK_RECLEN + bsiz jnl_rec + cmdstrlen jnl_rec + JREC_SUFFIX_SIZE) JNL_REC_START_BNDRY
    | JRT_ALIGN => MIN_ALIGN_RECLEN ≤ forwptr jnl_rec
    | _ => True

/-- Pieces at the beginning of a record and its suffix at the end, nothing between them. -/
def suffixedImage (rlen : Nat) (pieces : List UInt8) : List (Option UInt8) :=
  pieces.map some ++ List.replicate (rlen - (pieces.length + JREC_SUFFIX_SIZE)) none ++
    (jrec_suffix rlen).map some

/-- The bytes of the record, where none is a byte of filler or alignment. -/
def recordImage (rectype : jnl_record_type) (jnl_rec parm1 in_str : ByteMemory) : List (Option UInt8) :=
  let rlen := forwptr jnl_rec
  if jrt_fixed_size rectype then (jnl_rec.read 0 rlen).map some
  else
    match rectype with
    | JRT_PBLK => suffixedImage rlen (blockPieces false jnl_rec parm1 in_str)
    | JRT_AIMG => suffixedImage rlen (blockPieces true jnl_rec parm1 in_str)
    | JRT_ALIGN => suffixedImage rlen (jnl_rec.read 0 FIXED_ALIGN_RECLEN)
    | _ => (parm1.read 0 rlen).map some

end Ydb.JournalBuffer
