import Mathlib.Algebra.Group.Nat.Defs
import Mathlib.Logic.Function.Basic
import Ydb.Lib.ByteMemory

/-!
# Sorting the journal records of a transaction

The buffer of a transaction of several regions holds the update records of one region after
another, then a commit record of each region. The update records are merged by their update
numbers, from a private copy. A buffer that is not of this form is left alone.
-/

namespace Ydb.TransactionSort

open Lib

/-! ## Journal records -/

/-- Types of journal records, by their numbers. -/
def JRT_TCOM : Nat := 17

/-- KILL, FKILL, GKILL, SET, FSET, GSET; TKILL, UKILL, TSET, USET; the ZKILL, ZTWORM, ZTRIG and LGTRIG
records. -/
def IS_SET_KILL_ZKILL_ZTWORM_LGTRIG_ZTRIG (rectype : Nat) : Bool :=
  rectype ∈ [4, 5, 6, 7, 8, 9, 13, 14, 15, 16, 20, 21, 22, 23, 24, 28, 29, 30, 31, 34, 35]

/-- The first update record of a region: TKILL, TSET, TZKILL, TZTWORM, TZTRIG, TLGTRIG. -/
def IS_TUPD (rectype : Nat) : Bool := rectype ∈ [13, 15, 23, 28, 30, 34]

def JREC_PREFIX_SIZE : Nat := 24

/-- The size of a commit record. -/
def TCOM_SIZE : Nat := 56

variable (mem : ByteMemory) (a : Nat)

/-- Two bytes as a number. -/
def uint2At : Nat := (mem a).toNat + 256 * (mem (a + 1)).toNat

/-- The type of the record. -/
def jrec_type : Nat := (mem a).toNat

/-- The length of a record, 24 bits behind its type. -/
def forwptr : Nat := uint2At mem (a + 1) + 65536 * (mem (a + 3)).toNat

/-- The number of an update within its transaction. -/
def update_num : Nat := uint2At mem (a + 40) + 65536 * uint2At mem (a + 42)

/-- The number of regions, in a commit record. -/
def num_participants : Nat := uint2At mem (a + 42)

/-! ## Scanning the buffer -/

/-- Where the update records of a region are. -/
structure reg_jrec_info_t where
  working_offset : Nat
  end_offset : Nat

/-- The variables of the scan. -/
structure Scan where
  already_sorted : Bool
  max_updnum : Nat
  prev_updnum : Nat
  first_tcom_offset : Nat
  balanced : Int
  reg_idx : Nat
  reg_jrec_info_array : Nat → reg_jrec_info_t
  tb : Nat
  tlen : Nat

/-- The scan begins at the first record. -/
def Scan.start (reg_jrec_info_array : Nat → reg_jrec_info_t) (tr_bufflen : Nat) : Scan :=
  ⟨true, 0, 0, 0, 0, 0, reg_jrec_info_array, 0, tr_bufflen⟩

/-- What a turn of the scan comes to: a bad record, a store behind the array of regions (what the code does from
there on is not defined), the end of the loop, or the next turn. -/
inductive ScanStep where
  | bad
  | overruns
  | stop (s : Scan)
  | next (s : Scan)

/-- How the scan ends. -/
inductive ScanEnd where
  | bad
  | overruns
  | done (s : Scan)

/-- The region that begins at a record, and with it the end of the one before. -/
def beginRegion (s : Scan) : Scan :=
  let array := Function.update s.reg_jrec_info_array s.reg_idx
    { s.reg_jrec_info_array s.reg_idx with working_offset := s.tb }
  let array := if 0 < s.reg_idx then
      Function.update array (s.reg_idx - 1) { array (s.reg_idx - 1) with end_offset := s.tb }
    else array
  { s with balanced := s.balanced + 1, reg_jrec_info_array := array, reg_idx := s.reg_idx + 1 }

/-- Go on behind a record. -/
def advance (s : Scan) (reclen : Nat) : Scan := { s with tb := s.tb + reclen, tlen := s.tlen - reclen }

/-- One record; `buff` is the buffer by offsets. The array of regions has `max_participants` entries; its index is
checked by an assertion only, which the release build does not have. -/
def scanRecord (buff : ByteMemory) (max_participants : Nat) (s : Scan) : ScanStep :=
  let rectype := jrec_type buff s.tb
  let reclen := forwptr buff s.tb
  if reclen = 0 ∨ reclen > s.tlen then .bad
  else if IS_SET_KILL_ZKILL_ZTWORM_LGTRIG_ZTRIG rectype then
    let cur_updnum := update_num buff s.tb
    let already_sorted := s.already_sorted && decide (s.prev_updnum ≤ cur_updnum)
    let max_updnum := max s.max_updnum cur_updnum
    if IS_TUPD rectype ∧ max_participants ≤ s.reg_idx then .overruns
    else
      let s := if IS_TUPD rectype then beginRegion s else s
      .next (advance { s with already_sorted, max_updnum, prev_updnum := cur_updnum } reclen)
  else
    let first_tcom_offset := if s.first_tcom_offset = 0 then s.tb else s.first_tcom_offset
    let s := { s with first_tcom_offset, balanced := s.balanced - 1 }
    if 0 > s.balanced then .stop s else .next (advance s reclen)

/-- Scan while there is a record. Every turn but the last takes something off `tlen`, so that as many turns as
there are bytes are enough. -/
def scanLoop (buff : ByteMemory) (max_participants : Nat) (s : Scan) : Nat → ScanEnd
  | 0 => .done s
  | turns + 1 =>
    if JREC_PREFIX_SIZE ≤ s.tlen then
      match scanRecord buff max_participants s with
      | .bad => .bad
      | .overruns => .overruns
      | .stop s => .done s
      | .next s => scanLoop buff max_participants s turns
    else .done s

/-! ## Merging -/

/-- The least update number at the fronts of the regions, its region, and the next. -/
structure MinScan where
  min_updnum_reg : Nat
  min_val : Nat
  next_min_val : Nat
  sorting_needed : Bool

/-- Look at one participant's next record. -/
def minTurn (private_tr_buff : ByteMemory) (info : Nat → reg_jrec_info_t) (reg_idx : Nat) (m : MinScan) : MinScan :=
  if (info reg_idx).working_offset ≥ (info reg_idx).end_offset then m
  else
    let this_reg_updnum := update_num private_tr_buff (info reg_idx).working_offset
    if this_reg_updnum < m.min_val then ⟨reg_idx, this_reg_updnum, m.min_val, true⟩
    else if this_reg_updnum < m.next_min_val then ⟨m.min_updnum_reg, m.min_val, this_reg_updnum, true⟩
    else ⟨m.min_updnum_reg, m.min_val, m.next_min_val, true⟩

/-- The turns over the first regions. -/
def minScan (private_tr_buff : ByteMemory) (info : Nat → reg_jrec_info_t) (top : Nat) : Nat → MinScan
  | 0 => ⟨0, top, top, false⟩
  | reg_idx + 1 => minTurn private_tr_buff info reg_idx (minScan private_tr_buff info top reg_idx)

/-- Where the records of a region stop to be less than the next least, in at most so many turns. -/
def batchEnd (private_tr_buff : ByteMemory) (next_min_val reg_top next_record_addr : Nat) : Nat → Nat
  | 0 => next_record_addr
  | turns + 1 =>
    if next_record_addr < reg_top ∧ update_num private_tr_buff next_record_addr < next_min_val then
      batchEnd private_tr_buff next_min_val reg_top (next_record_addr + forwptr private_tr_buff next_record_addr) turns
    else next_record_addr

/-- Copy batches to `dst_addr` until all regions are done, in at most so many turns. -/
def mergeLoop (private_tr_buff : ByteMemory) (participants top : Nat) (mem : ByteMemory)
    (info : Nat → reg_jrec_info_t) (dst_addr : Nat) : Nat → Option ByteMemory
  | 0 => none
  | turns + 1 =>
    let m := minScan private_tr_buff info top participants
    if !m.sorting_needed then some mem
    else
      let working := (info m.min_updnum_reg).working_offset
      let reg_top := (info m.min_updnum_reg).end_offset
      let next_record_addr := batchEnd private_tr_buff m.next_min_val reg_top
        (working + forwptr private_tr_buff working) reg_top
      let copy_len := next_record_addr - working
      mergeLoop private_tr_buff participants top (mem.store dst_addr (private_tr_buff.read working copy_len))
        (Function.update info m.min_updnum_reg { info m.min_updnum_reg with working_offset := next_record_addr })
        (dst_addr + copy_len) turns

/-! ## The function -/

/-- How the function returns: there was nothing to sort, the buffer is malformed, the records were in order, or
they were merged. -/
inductive SortVerdict where
  | single
  | rejected
  | sorted
  | merged
deriving DecidableEq

/-- A call returns, or it stores behind the array of regions, after which anything may happen. -/
inductive Outcome where
  | returns (verdict : SortVerdict) (mem : ByteMemory)
  | overruns

/-- What earlier calls left: the array of regions, allocated for so many participants, and the private buffer;
and what a newly allocated array would hold. -/
structure Statics where
  max_participants : Nat
  reg_jrec_info_array : Nat → reg_jrec_info_t
  private_tr_buff : ByteMemory
  malloc : Nat → reg_jrec_info_t

/-- The array of regions grows for more participants than any earlier call had. -/
def growArray (statics : Statics) (participants : Nat) : Statics :=
  if statics.max_participants < participants then
    { statics with max_participants := participants, reg_jrec_info_array := statics.malloc }
  else statics

/-- The number of participants, as the record at the end of the buffer has it. -/
def lastParticipants (mem : ByteMemory) (tr_buff tr_bufflen : Nat) : Nat :=
  num_participants mem (tr_buff + tr_bufflen - TCOM_SIZE)

/-- What the function does with how the scan ends: it looks at what the tests found, closes the last region, and
merges the records that are not in order from a private copy. -/
def afterScan (statics : Statics) (mem : ByteMemory) (tr_buff tr_bufflen participants : Nat) : ScanEnd → Option Outcome
  | .bad => some (.returns .rejected mem)
  | .overruns => some .overruns
  | .done s =>
    if s.tlen ≠ 0 ∨ s.balanced ≠ 0 then some (.returns .rejected mem)
    else if s.reg_idx = 0 then some .overruns
    else
      let info := Function.update s.reg_jrec_info_array (s.reg_idx - 1)
        { s.reg_jrec_info_array (s.reg_idx - 1) with end_offset := s.first_tcom_offset }
      if s.already_sorted then some (.returns .sorted mem)
      else
        let private_tr_buff : ByteMemory := fun a =>
          if a < tr_bufflen then mem (tr_buff + a) else statics.private_tr_buff a
        let top := (s.max_updnum + 1) % 2 ^ 32
        (mergeLoop private_tr_buff participants top mem info tr_buff (tr_bufflen + 1)).map fun mem =>
          .returns .merged mem

/-- The function; `none` is a merge that needs more turns than there are bytes. -/
def repl_sort_tr_buff (statics : Statics) (mem : ByteMemory) (tr_buff tr_bufflen : Nat) : Option Outcome :=
  let buff : ByteMemory := fun a => mem (tr_buff + a)
  if forwptr buff 0 = tr_bufflen then some (.returns .single mem)
  else if !IS_TUPD (jrec_type buff 0) then some (.returns .rejected mem)
  else
    let last_tcom_rec_ptr := tr_buff + tr_bufflen - TCOM_SIZE
    let participants := lastParticipants mem tr_buff tr_bufflen
    if jrec_type mem last_tcom_rec_ptr ≠ JRT_TCOM then some (.returns .rejected mem)
    else if participants = 1 then some (.returns .single mem)
    else
      let statics := growArray statics participants
      afterScan statics mem tr_buff tr_bufflen participants
        (scanLoop buff statics.max_participants (.start statics.reg_jrec_info_array tr_bufflen) tr_bufflen)

end Ydb.TransactionSort
