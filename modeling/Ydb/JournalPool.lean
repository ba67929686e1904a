import Ydb.Lib.ByteMemory
import Ydb.CommitRingRuns

/-!
# The journal pool

The pool is a circular buffer of `jnlpool_size` bytes in shared memory, which the source
server reads up to `write_addr`. A process that has reserved space for a transaction
copies its journal records there one after the other, and waits before each copy until
the pool has room for it. An address is the number of bytes that were ever reserved
before it; its place in the pool is the remainder by `jnlpool_size`.

The bytes of a header and of the record that replaces a salvaged transaction are
parameters.
-/

namespace Ydb

open Lib

/-- `SIZEOF(jnldata_hdr_struct)` -/
def SIZEOF_jnldata_hdr : Nat := 8

/-- `jpl_rsrv_struct_t`: what a process knows about its reservation. There is none when
`tot_jrec_len` is zero. -/
structure JplRsrv where
  start_write_addr : Nat
  cur_write_addr : Nat
  tot_jrec_len : Nat
  write_total : Nat
  memcpy_skipped : Bool
  phase2_commit_index : Nat
  num_tcoms : Nat
deriving DecidableEq, Repr

/-- Nothing is reserved. -/
def JplRsrv.unreserved : JplRsrv := ⟨0, 0, 0, 0, false, 0, 0⟩

/-- The part of `UPDATE_JPL_RSRV_WRITE_ADDR` that is private to the process. -/
def reserveJrs (len : Nat) (ring : CommitRing) : JplRsrv where
  start_write_addr := ring.rsrv_addr
  cur_write_addr := ring.rsrv_addr + SIZEOF_jnldata_hdr
  tot_jrec_len := len
  write_total := SIZEOF_jnldata_hdr
  memcpy_skipped := false
  phase2_commit_index := ring.phase2_commit_index2
  num_tcoms := 0

/-! ## Writing records -/

/-- The variables of `jnl_pool_write` between two iterations of its loop. -/
structure PoolWrite where
  /-- `prefix.forwptr` bytes -/
  record : List UInt8
  /-- `max_iters - num_iters` -/
  iters : Nat
  write_total : Nat
  cur_write_addr : Nat
deriving DecidableEq, Repr

/-- `jnl_pool_write` up to its loop. For a TCOM record, `tcom` holds its
`num_participants`, and nothing is written before the last one. -/
def poolWriteBegin (jrs : JplRsrv) (tcom : Option Nat) (record : List UInt8) :
    JplRsrv × Option PoolWrite :=
  match tcom with
  | some num_participants =>
    let jrs := { jrs with num_tcoms := jrs.num_tcoms + 1 }
    if jrs.num_tcoms ≠ num_participants then (jrs, none)
    else (jrs, some ⟨record, num_participants, jrs.write_total, jrs.cur_write_addr⟩)
  | none => (jrs, some ⟨record, 1, jrs.write_total, jrs.cur_write_addr⟩)

section Pool

variable (jnlpool_size : Nat)

/-- The two `memcpy` calls of a record that may go around the end of the pool. -/
def poolMemcpy (mem : ByteMemory) (addr : Nat) (record : List UInt8) : ByteMemory :=
  let write := addr % jnlpool_size
  let dstlen := jnlpool_size - write
  if record.length ≤ dstlen then mem.store write record
  else if record.length < jnlpool_size then
    (mem.store write (record.take dstlen)).store 0 (record.drop dstlen)
  else mem

/-- The next iteration copies the record: it fits into what was reserved, and the whole
transaction fits into the pool. -/
def PoolWrite.Copies (jrs : JplRsrv) (w : PoolWrite) : Prop :=
  w.write_total + w.record.length ≤ jrs.tot_jrec_len ∧ jrs.tot_jrec_len ≤ jnlpool_size

instance (jrs : JplRsrv) (w : PoolWrite) : Decidable (w.Copies jnlpool_size jrs) :=
  inferInstanceAs (Decidable (_ ∧ _))

/-- The wait loop is over. -/
def PoolWrite.Waited (write_addr : Nat) (w : PoolWrite) : Prop :=
  (w.cur_write_addr + w.record.length : Int) - jnlpool_size ≤ write_addr

/-- One iteration of the loop of `jnl_pool_write`, after the wait. -/
def poolWriteIteration (jrs : JplRsrv) (w : PoolWrite) (mem : ByteMemory) :
    JplRsrv × PoolWrite × ByteMemory :=
  let rlen := w.record.length
  let pool_overflow := jrs.tot_jrec_len > jnlpool_size
  let write_total := w.write_total + rlen
  if write_total > jrs.tot_jrec_len then
    (jrs, { w with iters := w.iters - 1, write_total := write_total }, mem)
  else
    let next := { w with
      iters := w.iters - 1
      write_total := write_total
      cur_write_addr := w.cur_write_addr + rlen }
    if ¬ pool_overflow then (jrs, next, poolMemcpy jnlpool_size mem w.cur_write_addr w.record)
    else ({ jrs with memcpy_skipped := true }, next, mem)

/-- The end of `jnl_pool_write`. -/
def poolWriteEnd (jrs : JplRsrv) (w : PoolWrite) : JplRsrv :=
  { jrs with cur_write_addr := w.cur_write_addr, write_total := w.write_total }

variable (header : Nat → Nat → List UInt8) (null_rec : CommitEntry → List UInt8) (JRT_BAD : UInt8)

/-- `jpl_phase2_write_complete` up to the mark in the entry: the header, and a bad record
when the records written do not add up. -/
def writeHeader (jrs : JplRsrv) (entry : CommitEntry) (mem : ByteMemory) : ByteMemory :=
  if jrs.memcpy_skipped then mem
  else
    let mem := mem.store (jrs.start_write_addr % jnlpool_size) (header jrs.tot_jrec_len entry.prev_jrec_len)
    if jrs.write_total ≠ jrs.tot_jrec_len then
      mem.store ((jrs.start_write_addr + SIZEOF_jnldata_hdr) % jnlpool_size) [JRT_BAD]
    else mem

/-- What `repl_phase2_salvage` writes in the place of a dead transaction that the pool
still has room for. -/
def repl_phase2_salvage (rsrv_write_addr : Nat) (deadCmt : CommitEntry) (mem : ByteMemory) : ByteMemory :=
  if rsrv_write_addr - deadCmt.start_addr ≤ jnlpool_size then
    let write := deadCmt.start_addr % jnlpool_size
    let mem := mem.store write (header deadCmt.tot_jrec_len deadCmt.prev_jrec_len)
    let write := write + SIZEOF_jnldata_hdr
    let dstlen := jnlpool_size - write
    let record := null_rec deadCmt
    if record.length ≤ dstlen then mem.store write record
    else (mem.store write (record.take dstlen)).store 0 (record.drop dstlen)
  else mem

/-- Move the commit index over finished slots. -/
def repl_phase2_cleanup (is_proc_alive : Nat → Bool) (process_id : Nat) (now_crit : Bool)
    (jpl : CommitRing) (mem : ByteMemory) : CommitRing × ByteMemory :=
  phase2_cleanup (repl_phase2_salvage jnlpool_size header null_rec jpl.rsrv_addr)
    JPL_PHASE2_COMMIT_ARRAY_SIZE is_proc_alive process_id now_crit jpl mem

end Pool

/-- `jnl_phase2_cleanup`, for any way to salvage an entry of the journal buffer. -/
def jnl_phase2_cleanup {α : Type} (jnl_phase2_salvage : CommitEntry → α → α)
    (is_proc_alive : Nat → Bool) (process_id : Nat) (now_crit : Bool) (jbp : CommitRing) (mem : α) :
    CommitRing × α :=
  phase2_cleanup jnl_phase2_salvage JNL_PHASE2_COMMIT_ARRAY_SIZE is_proc_alive process_id now_crit jbp mem

/-! ## The copy -/

section Copy

variable {jnlpool_size : Nat} {mem : ByteMemory}

/-- A copy changes no byte but those of its own addresses. -/
theorem poolMemcpy_of_apart {addr a : Nat} {record : List UInt8} (inside : a < jnlpool_size)
    (apart : ∀ i < record.length, (addr + i) % jnlpool_size ≠ a) :
    poolMemcpy jnlpool_size mem addr record a = mem a := by
  have room : addr % jnlpool_size < jnlpool_size := Nat.mod_lt _ (Nat.zero_lt_of_lt inside)
  simp only [← Nat.mod_add_mod addr] at apart
  unfold poolMemcpy
  generalize addr % jnlpool_size = write at *
  -- The byte is not one that is written before the end of the pool is reached.
  have ahead : ∀ len ≤ record.length, write + len ≤ jnlpool_size → a < write ∨ write + len ≤ a := by
    intro len short fits
    by_contra hit
    apply apart (a - write) (by omega)
    rw [show write + (a - write) = a by omega, Nat.mod_eq_of_lt inside]
  split
  · exact ByteMemory.store_of_outside (ahead _ (Nat.le_refl _) (by omega))
  · split
    · rename_i long short
      rw [ByteMemory.store_of_outside, ByteMemory.store_of_outside]
      · rw [List.length_take]
        exact ahead _ (by omega) (by omega)
      · rw [List.length_drop]
        right
        by_contra hit
        apply apart (jnlpool_size - write + a) (by omega)
        rw [show write + (jnlpool_size - write + a) = a + jnlpool_size by omega, Nat.add_mod_right,
          Nat.mod_eq_of_lt inside]
    · rfl

end Copy

end Ydb
