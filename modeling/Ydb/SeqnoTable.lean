import Mathlib.Order.Basic
import Ydb.Lib.MachineWords

/-!
# The first lost transaction of a rollback

Rollback keeps the sequence numbers it has seen in a table. Transactions are lost from the
first broken one, from the sequence number it resynchronizes at, or from the first one that
is missing, whichever is least. The missing one is found in an array of bits, one for each
sequence number in the range of the table, by words, by bytes and by a table of clear bits.
-/

namespace Ydb.SeqnoTable

open Lib

/-! ## The table -/

/-- An entry of the table. A broken transaction lacks some of its regions. -/
structure multi_struct where
  token : UInt64
  partner : UInt32
deriving DecidableEq

def MAXUINT8 : UInt64 := 0xFFFFFFFFFFFFFFFF

/-- What the first pass through the table finds. -/
structure SeqnoRange where
  min_resolve_seqno : UInt64
  max_resolve_seqno : UInt64
  min_brkn_seqno : UInt64

/-- One turn of the first pass. -/
def noteSeqno (range : SeqnoRange) (multi : multi_struct) : SeqnoRange :=
  { min_resolve_seqno := if multi.token < range.min_resolve_seqno then multi.token else range.min_resolve_seqno
    max_resolve_seqno := if multi.token > range.max_resolve_seqno then multi.token else range.max_resolve_seqno
    min_brkn_seqno :=
      if 0 < multi.partner ∧ multi.token < range.min_brkn_seqno then multi.token else range.min_brkn_seqno }

/-- The least and greatest numbers of the table. -/
def seqnoRange (multis : List multi_struct) : SeqnoRange :=
  multis.foldl noteSeqno ⟨MAXUINT8, 0, MAXUINT8⟩

/-! ## The array of bits -/

/-- Divide, rounded up. -/
def DIVIDE_ROUND_UP (value modulus : UInt64) : UInt64 := (value + (modulus - 1)) / modulus

/-- The next multiple. -/
def ROUND_UP (value modulus : UInt64) : UInt64 := DIVIDE_ROUND_UP value modulus * modulus

/-- Set the bit of a sequence number. A write outside the allocated array has no result. -/
def setSeqno (min_resolve_seqno : UInt64) (seq_arr : List UInt8) (multi : multi_struct) : Option (List UInt8) :=
  let index := multi.token - min_resolve_seqno
  let byte := (index >>> 3).toNat
  let bit := (index &&& 7).toUInt8
  if byte < seq_arr.length then some (seq_arr.set byte (seq_arr.getD byte 0 ||| (1 <<< bit))) else none

/-- Step 1: skip words of ones. -/
def skipWords (seq_arr : List UInt8) (ptr : Nat) : Nat → Nat
  | 0 => ptr
  | left + 1 =>
    if word (seq_arr.drop (8 * ptr)) = BitVec.allOnes 64 then skipWords seq_arr (ptr + 1) left else ptr

/-- Step 2: skip bytes of ones. -/
def skipBytes (seq_arr : List UInt8) (index : Nat) : Nat → Nat
  | 0 => index
  | left + 1 => if seq_arr.getD index 0 = 0xFF then skipBytes seq_arr (index + 1) left else index

/-- Sixteen positions of the table below. -/
def zerobitRow (last : Int) : List Int := [0, 1, 0, 2, 0, 1, 0, 3, 0, 1, 0, 2, 0, 1, 0, last]

/-- The first zero bit of every byte. -/
def first_zerobit_position : List Int :=
  [4, 5, 4, 6, 4, 5, 4, 7, 4, 5, 4, 6, 4, 5, 4, -1].flatMap zerobitRow

/-- The offset of the first sequence number that the array lacks. -/
def zerobitOffset (seq_arr : List UInt8) (seq_arr_size : Nat) : UInt64 :=
  let index := 8 * skipWords seq_arr 0 (seq_arr.length / 8)
  let index := skipBytes seq_arr index (seq_arr_size - index)
  let offset := UInt64.ofNat (index * 8)
  if index < seq_arr_size then
    offset + UInt64.ofInt (first_zerobit_position.getD (seq_arr.getD index 0).toNat 0)
  else offset

/-- The first sequence number from the least one on that the table lacks. -/
def findGap (multis : List multi_struct) (range : SeqnoRange) : Option UInt64 :=
  let seqno_span := range.max_resolve_seqno - range.min_resolve_seqno + 1
  let seq_arr_size := DIVIDE_ROUND_UP seqno_span 8
  let seq_arr_alloc_size := ROUND_UP seq_arr_size 8
  let seq_arr := List.replicate seq_arr_alloc_size.toNat 0
  (multis.foldlM (setSeqno range.min_resolve_seqno) seq_arr).map fun seq_arr =>
    range.min_resolve_seqno + zerobitOffset seq_arr seq_arr_size.toNat

/-! ## The boundary -/

/-- The two sequence numbers that are determined. -/
structure SeqnoResult where
  min_broken_seqno : UInt64
  losttn_seqno : UInt64
deriving DecidableEq

/-- The sequence number that rollback stops at. -/
def stopSeqno (resync_seqno : UInt64) : UInt64 := if resync_seqno ≠ 0 then resync_seqno else MAXUINT8

/-- Whether the missing sequence number has to be searched for. -/
def SearchesGap (range : SeqnoRange) (resync_seqno losttn_seqno : UInt64) : Prop :=
  losttn_seqno = range.min_resolve_seqno ∧ stopSeqno resync_seqno ≥ range.min_resolve_seqno ∧
    range.max_resolve_seqno ≥ range.min_resolve_seqno

instance (range : SeqnoRange) (resync_seqno losttn_seqno : UInt64) :
    Decidable (SearchesGap range resync_seqno losttn_seqno) :=
  inferInstanceAs (Decidable (_ ∧ _ ∧ _))

/-- The sequence number with the bounds that rollback stops at and that are broken. -/
def boundSeqno (stop_rlbk_seqno min_brkn_seqno lcl_losttn_seqno : UInt64) : UInt64 :=
  let lcl_losttn_seqno := if lcl_losttn_seqno > stop_rlbk_seqno then stop_rlbk_seqno else lcl_losttn_seqno
  if lcl_losttn_seqno > min_brkn_seqno then min_brkn_seqno else lcl_losttn_seqno

/-- Determine the first lost and the first broken sequence number. Entries of the table that hold
no transaction are `none`. -/
def mur_process_seqno_table (token_table : List (Option multi_struct)) (resync_seqno losttn_seqno : UInt64) :
    Option SeqnoResult :=
  let multis := token_table.filterMap id
  let range := seqnoRange multis
  let gap := if SearchesGap range resync_seqno losttn_seqno then findGap multis range else some losttn_seqno
  gap.map fun lcl_losttn_seqno =>
    ⟨range.min_brkn_seqno, boundSeqno (stopSeqno resync_seqno) range.min_brkn_seqno lcl_losttn_seqno⟩

end Ydb.SeqnoTable
