import Ydb.SeparatorKey
import Ydb.Lib.CommonPrefix

/-!
# Searching a block

A block of a global's tree is a header and a sequence of records in the order of their
keys. A record leaves out the bytes that its key shares with the key before it, and says
how many. `gvcst_search_blk` finds the first record whose key is not below a target
without ever expanding a key: it carries along how many bytes of the target the last
record matched. Its variant for `expand_prev_key` also builds the key of the record
before that in `gv_altkey`.
-/

namespace Ydb

open Lib

/-! ## Layout -/

def SIZEOF_blk_hdr : Nat := 16
def SIZEOF_rec_hdr : Nat := 4
def SIZEOF_block_id : Nat := 4
def BSTAR_REC_SIZE : Nat := SIZEOF_rec_hdr + SIZEOF_block_id
def MAX_DB_BLK_SIZE : Nat := 2 ^ 16 - 512

/-- The fields of a block header and of a record header, in a block that starts at 0. -/
def levl (buffaddr : ByteMemory) : Nat := (buffaddr 3).toNat

/-- The size of a block, from its header. -/
def bsiz (buffaddr : ByteMemory) : Nat :=
  (buffaddr 4).toNat + 2 ^ 8 * (buffaddr 5).toNat + 2 ^ 16 * (buffaddr 6).toNat +
    2 ^ 24 * (buffaddr 7).toNat

/-- The size of a record. -/
def rsiz (buffaddr : ByteMemory) (rp : Nat) : Nat :=
  (buffaddr rp).toNat + 2 ^ 8 * (buffaddr (rp + 1)).toNat

/-- The compression count, which takes a second byte from 253 on. -/
def EVAL_CMPC (buffaddr : ByteMemory) (rp : Nat) : Nat :=
  let cmpc := (buffaddr (rp + 2)).toNat
  if 253 > cmpc then cmpc
  else (253 + (cmpc - 253) * 256 + (buffaddr (rp + 3)).toNat) % 2 ^ 10

/-! ## The search -/

/-- The outcomes other than success. -/
inductive SearchSc where
  | badoffset
  | blklenerr
  | blkmod
deriving DecidableEq, Repr

/-- A record and its match with the key. -/
structure SrchRecStatus where
  offset : Nat
  match_ : Nat
deriving DecidableEq, Repr

/-- What a search leaves of a block. -/
structure SrchBlkStatus where
  prev_rec : SrchRecStatus
  curr_rec : SrchRecStatus
deriving DecidableEq, Repr

/-- The variables of the loop. Pointers into the block and into the target key are
offsets. -/
structure SearchVars where
  pRecBase : Nat
  pPrevRec : Nat
  nRecLen : Nat
  nTmp : Nat
  nMatchCnt : Nat
  nTargLen : Nat
  pCurrTarg : Nat
deriving DecidableEq, Repr

/-- The variables for the key of the previous record: `gv_altkey` and the rest of the
key, which is not yet copied. `prevKeyUnCmp` points into some memory. -/
structure PrevKeyVars where
  altkey : KeyBuffer
  prevKeyCmpLen : Nat
  prevKeyUnCmp : Option (ByteMemory × Nat)
  first_iteration : Bool

/-- Copy into a key. -/
def KeyBuffer.memcpy (key : KeyBuffer) (target : Nat) (source : ByteMemory) (addr len : Nat) :
    KeyBuffer :=
  { key with base := key.base.store target (source.read addr len) }

/-- Bring `gv_altkey` up to the record at `pRecBase`, whose compression count is `nTmp`. -/
def PrevKeyVars.turn (p : PrevKeyVars) (buffaddr : ByteMemory) (v : SearchVars) :
    Except SearchSc PrevKeyVars :=
  if v.pRecBase = 0 then .ok { p with first_iteration := false }
  else
    let behind : PrevKeyVars :=
      { p with
        prevKeyCmpLen := v.nTmp
        prevKeyUnCmp := some (buffaddr, v.pRecBase + SIZEOF_rec_hdr)
        first_iteration := false }
    if v.nTmp > p.prevKeyCmpLen then
      match p.prevKeyUnCmp with
      | none => .error .blkmod
      | some (source, addr) =>
        if v.nTmp ≥ p.altkey.top ∨ (p.first_iteration ∧ v.nTmp > p.prevKeyCmpLen + 1) then
          .error .blkmod
        else
          .ok { behind with
            altkey := p.altkey.memcpy p.prevKeyCmpLen source addr (v.nTmp - p.prevKeyCmpLen) }
    else .ok behind

/-- Compare the target with the bytes at `pRec`, at most `nTargLen` of them: the difference
at the end, the place in the target, and how much of it is left. -/
def compareTarget (target buffaddr : ByteMemory) (pCurrTarg pRec : Nat) : Nat → Int × Nat × Nat
  | 0 => (0, pCurrTarg, 0)
  | nTargLen + 1 =>
    let nFlg : Int := (target pCurrTarg).toNat - (buffaddr pRec).toNat
    if nFlg ≠ 0 then (nFlg, pCurrTarg, nTargLen + 1)
    else compareTarget target buffaddr (pCurrTarg + 1) (pRec + 1) nTargLen

/-- Whether the loop goes on. -/
inductive SearchTurn where
  | next (v : SearchVars)
  | found (v : SearchVars)

/-- A record that matches as far as its compression count is compared with the target. -/
def compareRecord (target buffaddr : ByteMemory) (level0 : Bool) (v : SearchVars) : SearchTurn :=
  let (nFlg, pCurrTarg, nTargLen) :=
    compareTarget target buffaddr v.pCurrTarg (v.pRecBase + SIZEOF_rec_hdr) v.nTargLen
  if 0 < nFlg then
    .next { v with pCurrTarg := pCurrTarg, nTargLen := nTargLen, nMatchCnt := pCurrTarg }
  else
    .found { v with
      pCurrTarg := pCurrTarg
      nTargLen := if v.nRecLen = BSTAR_REC_SIZE ∧ level0 = false then 0 else pCurrTarg }

/-- One turn of the loop, without what the expanding variants add. -/
def searchTurn (target buffaddr : ByteMemory) (pTop : Nat) (level0 : Bool) (v : SearchVars) :
    Except SearchSc SearchTurn :=
  let pRec := v.pRecBase + v.nRecLen
  if pRec ≥ pTop then
    if pRec > pTop then .error .blklenerr
    else if level0 = false then
      if v.pRecBase = 0 then .error .blkmod
      else .ok (.found { v with nTargLen := 0, nMatchCnt := 0 })
    else .ok (.found { v with nTargLen := 0, pPrevRec := v.pRecBase, pRecBase := pRec })
  else if rsiz buffaddr pRec = 0 then .error .badoffset
  else
    let v : SearchVars :=
      { v with
        nRecLen := rsiz buffaddr pRec
        pPrevRec := v.pRecBase
        pRecBase := pRec
        nTmp := EVAL_CMPC buffaddr pRec }
    if v.nTmp > v.nMatchCnt then .ok (.next v)
    else if v.nTmp < v.nMatchCnt then
      .ok (.found { v with
        nTargLen := if v.nRecLen = BSTAR_REC_SIZE ∧ level0 = false then 0 else v.nTmp })
    else .ok (compareRecord target buffaddr level0 v)

/-- The loop. Each turn passes a record of at least one byte, which bounds the number of
turns. -/
def searchLoop (target buffaddr : ByteMemory) (pTop : Nat) (level0 : Bool) :
    Nat → SearchVars → Option PrevKeyVars → Except SearchSc (SearchVars × Option PrevKeyVars)
  | 0, _, _ => .error .blklenerr
  | turns + 1, v, p => do
    let p ← p.mapM fun p => p.turn buffaddr v
    match ← searchTurn target buffaddr pTop level0 v with
    | .next v => searchLoop target buffaddr pTop level0 turns v p
    | .found v => return (v, p)

/-- Advance to the second of two delimiters. -/
def secondDelimiter (mem : ByteMemory) (pTop : Nat) : Nat → Nat → Option Nat
  | 0, _ => none
  | turns + 1, tmpPtr =>
    if tmpPtr ≥ pTop then none
    else if mem tmpPtr = KEY_DELIMITER ∧ mem (tmpPtr + 1) = KEY_DELIMITER then some (tmpPtr + 1)
    else secondDelimiter mem pTop turns (tmpPtr + 1)

/-- Complete `gv_altkey` with the bytes of the key that are not compressed. -/
def PrevKeyVars.complete (p : PrevKeyVars) (pTop : Nat) : Except SearchSc KeyBuffer :=
  match p.prevKeyUnCmp with
  | none => .ok { p.altkey with end_ := 0 }
  | some (source, addr) =>
    match secondDelimiter source (pTop - 1) pTop addr with
    | none => .error .blkmod
    | some second =>
      let prevKeyUnCmpLen := second + 1 - addr
      if p.prevKeyCmpLen + prevKeyUnCmpLen > p.altkey.top then .error .blkmod
      else
        .ok { p.altkey.memcpy p.prevKeyCmpLen source addr prevKeyUnCmpLen with
          end_ := p.prevKeyCmpLen + prevKeyUnCmpLen - 1 }

/-- The status, in unsigned shorts. -/
def SearchVars.status (v : SearchVars) : SrchBlkStatus :=
  ⟨⟨v.pPrevRec % 2 ^ 16, v.nMatchCnt % 2 ^ 16⟩, ⟨v.pRecBase % 2 ^ 16, v.nTargLen % 2 ^ 16⟩⟩

/-- The variables before the first turn: the header counts as a record. -/
def SearchVars.start (pKey : KeyBuffer) : SearchVars :=
  ⟨0, 0, SIZEOF_blk_hdr, 0, 0, pKey.end_ + 1, 0⟩

/-- Search a block for a key. At level 0, `expand_prev_key` also asks for the key of the
previous record in `gv_altkey`. -/
def gvcst_search_blk (blk_size : Nat) (expand_prev_key : Bool) (gv_altkey : KeyBuffer)
    (pKey : KeyBuffer) (buffaddr : ByteMemory) : Except SearchSc (SrchBlkStatus × KeyBuffer) := do
  let level0 := levl buffaddr = 0
  let pTop := min (bsiz buffaddr) blk_size
  let p : Option PrevKeyVars :=
    if level0 ∧ expand_prev_key then some ⟨gv_altkey, 0, none, false⟩ else none
  let (v, p) ← searchLoop pKey.base buffaddr pTop level0 (pTop + 1) (.start pKey) p
  match p with
  | none => return (v.status, gv_altkey)
  | some p => return (v.status, ← p.complete pTop)

end Ydb
