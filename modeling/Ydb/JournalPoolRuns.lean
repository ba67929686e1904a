import Ydb.JournalPool

/-!
# Runs of the journal pool

Each process has its own reservation and copies its records into the pool while others
reserve, complete and clean up. The state also records which addresses were ever copied.
A record is copied behind the published address and less than a whole pool ahead of it,
and no address is copied twice; so no copy reaches a byte that was copied before and is
not published yet.
-/

namespace Ydb

open Lib

/-! ## The system -/

/-- The pool and the reservations of its processes. -/
structure PoolState extends RingState where
  /-- The reservation of each process. -/
  jrs : Nat → JplRsrv
  /-- The call of `jnl_pool_write` that a process is in. -/
  writing : Nat → Option PoolWrite
  jnldata : ByteMemory
  /-- Address and length of each record that was ever copied. -/
  copied : List (Nat × Nat)

section System

variable (jnlpool_size : Nat) (header : Nat → Nat → List UInt8) (null_rec : CommitEntry → List UInt8)
  (JRT_BAD : UInt8)

/-- The pool and the ring after a cleanup by the process `p`. -/
def PoolState.cleanup (s : PoolState) (p : Nat) : CommitRing × ByteMemory :=
  repl_phase2_cleanup jnlpool_size header null_rec s.is_proc_alive p (s.crit == some p) s.ring s.jnldata

/-- The iteration that the process `p` is about to do. -/
def PoolState.iteration (s : PoolState) (p : Nat) (w : PoolWrite) : JplRsrv × PoolWrite × ByteMemory :=
  poolWriteIteration jnlpool_size (s.jrs p) w s.jnldata

/-- What a process of the pool does next. -/
inductive PoolStep : PoolState → PoolState → Prop where
  | start (s : PoolState) (p : Nat) (absent : s.is_proc_alive p = false) :
      PoolStep s { s with is_proc_alive := Function.update s.is_proc_alive p true }
  | die (s : PoolState) (p : Nat) (alive : s.is_proc_alive p = true) :
      PoolStep s { s with
        is_proc_alive := Function.update s.is_proc_alive p false
        crit := if s.crit = some p then none else s.crit
        jrs := Function.update s.jrs p JplRsrv.unreserved
        writing := Function.update s.writing p none }
  | enter (s : PoolState) (p : Nat) (alive : s.is_proc_alive p = true) (free : s.crit = none) :
      PoolStep s { s with crit := some p }
  | leave (s : PoolState) (p : Nat) (holds : s.crit = some p) :
      PoolStep s { s with crit := none }
  | reserve (s : PoolState) (p len : Nat) (alive : s.is_proc_alive p = true)
      (holds : s.crit = some p) (unreserved : (s.jrs p).tot_jrec_len = 0)
      (notFull : ringNext JPL_PHASE2_COMMIT_ARRAY_SIZE s.ring.phase2_commit_index2 ≠
        s.ring.phase2_commit_index1) :
      PoolStep s { s with
        ring := reserve JPL_PHASE2_COMMIT_ARRAY_SIZE p len s.ring
        reservations := s.reservations ++ [⟨p, s.ring.rsrv_addr, len⟩]
        jrs := Function.update s.jrs p (reserveJrs len s.ring) }
  | beginWrite (s : PoolState) (p : Nat) (tcom : Option Nat) (record : List UInt8)
      (reserved : (s.jrs p).tot_jrec_len ≠ 0) (between : s.writing p = none) :
      PoolStep s { s with
        jrs := Function.update s.jrs p (poolWriteBegin (s.jrs p) tcom record).1
        writing := Function.update s.writing p (poolWriteBegin (s.jrs p) tcom record).2 }
  | iterate (s : PoolState) (p : Nat) (w : PoolWrite) (within : s.writing p = some w) (more : 0 < w.iters)
      (waited : w.Copies jnlpool_size (s.jrs p) → w.Waited jnlpool_size s.ring.write_addr) :
      PoolStep s { s with
        jrs := Function.update s.jrs p (s.iteration jnlpool_size p w).1
        writing := Function.update s.writing p (some (s.iteration jnlpool_size p w).2.1)
        jnldata := (s.iteration jnlpool_size p w).2.2
        copied := if w.Copies jnlpool_size (s.jrs p) then (w.cur_write_addr, w.record.length) :: s.copied
          else s.copied }
  | endWrite (s : PoolState) (p : Nat) (w : PoolWrite) (within : s.writing p = some w) (done : w.iters = 0) :
      PoolStep s { s with
        jrs := Function.update s.jrs p (poolWriteEnd (s.jrs p) w)
        writing := Function.update s.writing p none }
  | complete (s : PoolState) (p : Nat) (reserved : (s.jrs p).tot_jrec_len ≠ 0) :
      PoolStep s { s with
        ring := writeComplete (s.jrs p).phase2_commit_index s.ring
        jrs := Function.update s.jrs p { s.jrs p with tot_jrec_len := 0 }
        writing := Function.update s.writing p none
        jnldata := writeHeader jnlpool_size header JRT_BAD (s.jrs p)
          (s.ring.phase2_commit_array (s.jrs p).phase2_commit_index) s.jnldata }
  | cleanup (s : PoolState) (p : Nat) (alive : s.is_proc_alive p = true) :
      PoolStep s { s with
        ring := (s.cleanup jnlpool_size header null_rec p).1
        jnldata := (s.cleanup jnlpool_size header null_rec p).2
        cleaned := s.cleaned ++ ringList JPL_PHASE2_COMMIT_ARRAY_SIZE
          (s.cleanup jnlpool_size header null_rec p).1.phase2_commit_array
          s.ring.phase2_commit_index1 (s.cleanup jnlpool_size header null_rec p).1.phase2_commit_index1 }

end System

/-- An empty pool whose first reservation will start at `origin`. -/
structure PoolState.Initial (origin : Nat) (s : PoolState) : Prop where
  ring : s.toRingState.Initial JPL_PHASE2_COMMIT_ARRAY_SIZE origin
  jrs : ∀ p, (s.jrs p).tot_jrec_len = 0
  writing : ∀ p, s.writing p = none
  copied : s.copied = []

/-! ## The invariant -/

/-- Where a process goes on writing, and how much it has written. -/
def JplRsrv.position (jrs : JplRsrv) (writing : Option PoolWrite) : Nat × Nat :=
  match writing with
  | some w => (w.cur_write_addr, w.write_total)
  | none => (jrs.cur_write_addr, jrs.write_total)

/-- Where a process goes on writing. -/
def PoolState.position (s : PoolState) (p : Nat) : Nat × Nat := (s.jrs p).position (s.writing p)

/-- The entry of a process that has a reservation is on the ring and incomplete, and the
process is where it should be with its records. -/
structure Writer (ring : CommitRing) (p : Nat) (jrs : JplRsrv) (position : Nat × Nat) : Prop where
  inside : InRing JPL_PHASE2_COMMIT_ARRAY_SIZE ring.phase2_commit_index1 ring.phase2_commit_index2
    jrs.phase2_commit_index
  owner : (ring.phase2_commit_array jrs.phase2_commit_index).process_id = p
  start : (ring.phase2_commit_array jrs.phase2_commit_index).start_addr = jrs.start_write_addr
  tot : (ring.phase2_commit_array jrs.phase2_commit_index).tot_jrec_len = jrs.tot_jrec_len
  incomplete : (ring.phase2_commit_array jrs.phase2_commit_index).write_complete = false
  placed : position.2 ≤ jrs.tot_jrec_len → position.1 = jrs.start_write_addr + position.2

/-- The invariant of the pool. -/
structure PoolInv (jnlpool_size origin : Nat) (s : PoolState) : Prop where
  ring : RingInv JPL_PHASE2_COMMIT_ARRAY_SIZE origin s.toRingState
  writers : ∀ p, (s.jrs p).tot_jrec_len ≠ 0 → s.is_proc_alive p = true ∧
    Writer s.ring p (s.jrs p) (s.position p)
  reserved : ∀ p, s.writing p ≠ none → (s.jrs p).tot_jrec_len ≠ 0
  apart : ∀ p q, p ≠ q → (s.jrs p).tot_jrec_len ≠ 0 → (s.jrs q).tot_jrec_len ≠ 0 →
    (s.jrs p).start_write_addr + (s.jrs p).tot_jrec_len ≤ (s.jrs q).start_write_addr ∨
      (s.jrs q).start_write_addr + (s.jrs q).tot_jrec_len ≤ (s.jrs p).start_write_addr
  /-- Nothing is copied a whole pool ahead of the published address, -/
  withinPool : ∀ c ∈ s.copied, c.1 + c.2 ≤ s.ring.write_addr + jnlpool_size
  /-- nor outside of what was reserved, -/
  withinReserved : ∀ c ∈ s.copied, c.1 + c.2 ≤ s.ring.rsrv_addr
  /-- nor where a process is still going to write. -/
  fresh : ∀ c ∈ s.copied, ∀ p, (s.jrs p).tot_jrec_len ≠ 0 →
    (s.position p).2 ≤ (s.jrs p).tot_jrec_len →
    c.1 + c.2 ≤ (s.position p).1 ∨ (s.jrs p).start_write_addr + (s.jrs p).tot_jrec_len ≤ c.1

section Invariant

variable {jnlpool_size origin : Nat} {header : Nat → Nat → List UInt8}
  {null_rec : CommitEntry → List UInt8} {JRT_BAD : UInt8} {s s' : PoolState}

variable (jnlpool_size header null_rec) in
theorem PoolState.cleanup_ring (s : PoolState) (p : Nat) :
    (s.cleanup jnlpool_size header null_rec p).1 =
      s.toRingState.afterCleanup JPL_PHASE2_COMMIT_ARRAY_SIZE p :=
  phase2_cleanup_ring _ _ _ _ _ _ _

/-- A step of the pool is a step of its ring, or leaves it as it is. -/
theorem PoolStep.ringStep (step : PoolStep jnlpool_size header null_rec JRT_BAD s s')
    (inv : PoolInv jnlpool_size origin s) :
    RingStep JPL_PHASE2_COMMIT_ARRAY_SIZE s.toRingState s'.toRingState ∨
      s'.toRingState = s.toRingState := by
  cases step with
  | start p absent => exact .inl (.start _ p absent)
  | die p alive => exact .inl (.die _ p alive)
  | enter p alive free => exact .inl (.enter _ p alive free)
  | leave p holds => exact .inl (.leave _ p holds)
  | reserve p len alive holds unreserved notFull => exact .inl (.reserve _ p len alive holds notFull)
  | beginWrite p tcom record reserved between => exact .inr rfl
  | iterate p w within more waited => exact .inr rfl
  | endWrite p w within done => exact .inr rfl
  | complete p reserved =>
    obtain ⟨alive, writer⟩ := inv.writers p reserved
    exact .inl (.complete _ p _ alive writer.inside writer.owner writer.incomplete)
  | cleanup p alive =>
    left
    rw [PoolState.cleanup_ring]
    exact .cleanup _ p alive

theorem PoolStep.ringInv (step : PoolStep jnlpool_size header null_rec JRT_BAD s s')
    (inv : PoolInv jnlpool_size origin s) :
    RingInv JPL_PHASE2_COMMIT_ARRAY_SIZE origin s'.toRingState := by
  rcases step.ringStep inv with ringStep | same
  · exact ringStep.inv inv.ring
  · rw [same]
    exact inv.ring

theorem PoolStep.write_addr_le (step : PoolStep jnlpool_size header null_rec JRT_BAD s s')
    (inv : PoolInv jnlpool_size origin s) : s.ring.write_addr ≤ s'.ring.write_addr := by
  rcases step.ringStep inv with ringStep | same
  · exact ringStep.write_addr_le inv.ring
  · exact Nat.le_of_eq (congrArg (fun r => r.ring.write_addr) same.symm)

/-- What a process has reserved lies between the published and the reserved address. -/
theorem PoolInv.bounds (inv : PoolInv jnlpool_size origin s) {p : Nat}
    (reserved : (s.jrs p).tot_jrec_len ≠ 0) :
    s.ring.write_addr ≤ (s.jrs p).start_write_addr ∧
      (s.jrs p).start_write_addr + (s.jrs p).tot_jrec_len ≤ s.ring.rsrv_addr := by
  obtain ⟨_, writer⟩ := inv.writers p reserved
  have member : s.ring.phase2_commit_array (s.jrs p).phase2_commit_index ∈
      s.ring.entries JPL_PHASE2_COMMIT_ARRAY_SIZE := mem_ringList.mpr ⟨_, writer.inside, rfl⟩
  have bounds := inv.ring.above.mem_bounds (List.mem_map_of_mem member)
  rw [← writer.start, ← writer.tot]
  exact bounds

theorem PoolInv.reserved_of_some (inv : PoolInv jnlpool_size origin s) {p : Nat} {w : PoolWrite}
    (within : s.writing p = some w) : (s.jrs p).tot_jrec_len ≠ 0 := by
  apply inv.reserved p
  rw [within]
  exact Option.some_ne_none w

/-- The process `p` goes on with its reservation, or has a new one. -/
def Continues (s s' : PoolState) (p : Nat) : Prop :=
  ((s'.jrs p).start_write_addr = (s.jrs p).start_write_addr ∧
    (s'.jrs p).tot_jrec_len = (s.jrs p).tot_jrec_len ∧
    ((s'.position p).2 ≤ (s'.jrs p).tot_jrec_len →
      (s.position p).2 ≤ (s.jrs p).tot_jrec_len ∧ (s.position p).1 ≤ (s'.position p).1)) ∨
  (s.ring.rsrv_addr ≤ (s'.jrs p).start_write_addr ∧ s.ring.rsrv_addr ≤ (s'.position p).1)

/-- A process other than `p` does not notice a step of `p`. -/
structure Undisturbed (s s' : PoolState) (q : Nat) : Prop where
  jrs : s'.jrs q = s.jrs q
  writing : s'.writing q = s.writing q
  alive : (s.jrs q).tot_jrec_len ≠ 0 → s'.is_proc_alive q = true
  inside : (s.jrs q).tot_jrec_len ≠ 0 → InRing JPL_PHASE2_COMMIT_ARRAY_SIZE
    s'.ring.phase2_commit_index1 s'.ring.phase2_commit_index2 (s.jrs q).phase2_commit_index
  entry : (s.jrs q).tot_jrec_len ≠ 0 →
    s'.ring.phase2_commit_array (s.jrs q).phase2_commit_index =
      s.ring.phase2_commit_array (s.jrs q).phase2_commit_index

/-- Nothing but data of other processes has changed. -/
theorem Undisturbed.of_ring (inv : PoolInv jnlpool_size origin s) {q : Nat} (ring : s'.ring = s.ring)
    (alive : s'.is_proc_alive q = s.is_proc_alive q) (jrs : s'.jrs q = s.jrs q)
    (writing : s'.writing q = s.writing q) : Undisturbed s s' q := by
  refine ⟨jrs, writing, ?_, ?_, ?_⟩
  · intro reserved
    rw [alive]
    exact (inv.writers q reserved).1
  · intro reserved
    rw [ring]
    exact (inv.writers q reserved).2.inside
  · intro _
    rw [ring]

theorem Undisturbed.continues {q : Nat} (undisturbed : Undisturbed s s' q)
    (position : s'.position q = s.position q) : Continues s s' q := by
  left
  rw [position, undisturbed.jrs]
  exact ⟨rfl, rfl, fun within => ⟨within, Nat.le_refl _⟩⟩

theorem Undisturbed.position {q : Nat} (undisturbed : Undisturbed s s' q) :
    s'.position q = s.position q := by
  rw [PoolState.position, PoolState.position, undisturbed.jrs, undisturbed.writing]

theorem Undisturbed.writer {q : Nat} (undisturbed : Undisturbed s s' q)
    (reserved : (s.jrs q).tot_jrec_len ≠ 0) (writer : Writer s.ring q (s.jrs q) (s.position q)) :
    Writer s'.ring q (s'.jrs q) (s'.position q) := by
  rw [undisturbed.position, undisturbed.jrs]
  have entry := undisturbed.entry reserved
  refine ⟨undisturbed.inside reserved, ?_, ?_, ?_, ?_, writer.placed⟩
  · rw [entry]
    exact writer.owner
  · rw [entry]
    exact writer.start
  · rw [entry]
    exact writer.tot
  · rw [entry]
    exact writer.incomplete

/-- What a copy by the process `p` may add: addresses of its own reservation, before the
place where it goes on. -/
structure MayCopy (jnlpool_size : Nat) (s : PoolState) (p next : Nat) (c : Nat × Nat) : Prop where
  reserved : (s.jrs p).tot_jrec_len ≠ 0
  above : (s.jrs p).start_write_addr ≤ c.1
  below : c.1 + c.2 ≤ (s.jrs p).start_write_addr + (s.jrs p).tot_jrec_len
  written : c.1 + c.2 ≤ next
  room : c.1 + c.2 ≤ s.ring.write_addr + jnlpool_size

/-- A step of the process `p` keeps the invariant when it does so for `p` itself. -/
theorem PoolInv.preserved (inv : PoolInv jnlpool_size origin s)
    (step : PoolStep jnlpool_size header null_rec JRT_BAD s s') (p : Nat)
    (rsrv : s.ring.rsrv_addr ≤ s'.ring.rsrv_addr)
    (others : ∀ q, q ≠ p → Undisturbed s s' q)
    (copied : ∀ c ∈ s'.copied, c ∈ s.copied ∨ MayCopy jnlpool_size s p (s'.position p).1 c)
    (writer : (s'.jrs p).tot_jrec_len ≠ 0 → s'.is_proc_alive p = true ∧
      Writer s'.ring p (s'.jrs p) (s'.position p))
    (reserved : s'.writing p ≠ none → (s'.jrs p).tot_jrec_len ≠ 0)
    (continues : (s'.jrs p).tot_jrec_len ≠ 0 → Continues s s' p) :
    PoolInv jnlpool_size origin s' := by
  have monotone := step.write_addr_le inv
  have apartFrom : ∀ q, q ≠ p → (s'.jrs p).tot_jrec_len ≠ 0 → (s.jrs q).tot_jrec_len ≠ 0 →
      (s'.jrs p).start_write_addr + (s'.jrs p).tot_jrec_len ≤ (s.jrs q).start_write_addr ∨
        (s.jrs q).start_write_addr + (s.jrs q).tot_jrec_len ≤ (s'.jrs p).start_write_addr := by
    intro q differ first second
    rcases continues first with ⟨start, tot, _⟩ | ⟨behind, _⟩
    · rw [tot] at first
      rw [start, tot]
      exact inv.apart p q (Ne.symm differ) first second
    · exact .inr (Nat.le_trans (inv.bounds second).2 behind)
  refine ⟨step.ringInv inv, ?_, ?_, ?_, ?_, ?_, ?_⟩
  · intro q some
    by_cases same : q = p
    · subst same
      exact writer some
    · rw [(others q same).jrs] at some
      exact ⟨(others q same).alive some, (others q same).writer some (inv.writers q some).2⟩
  · intro q within
    by_cases same : q = p
    · subst same
      exact reserved within
    · rw [(others q same).writing] at within
      rw [(others q same).jrs]
      exact inv.reserved q within
  · intro q r differ first second
    by_cases same : q = p
    · subst same
      rw [(others r (Ne.symm differ)).jrs] at second ⊢
      exact apartFrom r (Ne.symm differ) first second
    · rw [(others q same).jrs] at first ⊢
      by_cases same' : r = p
      · subst same'
        exact (apartFrom q same second first).symm
      · rw [(others r same').jrs] at second ⊢
        exact inv.apart q r differ first second
  · intro c member
    rcases copied c member with old | new
    · have within := inv.withinPool c old
      omega
    · have within := new.room
      omega
  · intro c member
    rcases copied c member with old | new
    · exact Nat.le_trans (inv.withinReserved c old) rsrv
    · have upper := (inv.bounds new.reserved).2
      have within := new.below
      omega
  · intro c member q some within
    by_cases same : q = p
    · subst same
      rcases copied c member with old | new
      · rcases continues some with ⟨start, tot, position⟩ | ⟨_, behind⟩
        · obtain ⟨within, further⟩ := position within
          rw [tot] at some
          rw [start, tot]
          have kept := inv.fresh c old q some within
          omega
        · exact .inl (Nat.le_trans (inv.withinReserved c old) behind)
      · exact .inl new.written
    · rw [(others q same).jrs] at some within ⊢
      rw [(others q same).position] at within ⊢
      rcases copied c member with old | new
      · exact inv.fresh c old q some within
      · have placed := (inv.writers q some).2.placed within
        have above := new.above
        have below := new.below
        rcases inv.apart p q (Ne.symm same) new.reserved some with before | behind
        · left
          omega
        · right
          omega

/-! ## The steps -/

/-- The beginning of a call moves nothing. -/
theorem poolWriteBegin_spec (jrs : JplRsrv) (tcom : Option Nat) (record : List UInt8) :
    ∃ num_tcoms, (poolWriteBegin jrs tcom record).1 = { jrs with num_tcoms := num_tcoms } ∧
      ∀ w, (poolWriteBegin jrs tcom record).2 = some w →
        w.cur_write_addr = jrs.cur_write_addr ∧ w.write_total = jrs.write_total := by
  cases tcom with
  | none =>
    refine ⟨jrs.num_tcoms, rfl, ?_⟩
    rintro w ⟨⟩
    exact ⟨rfl, rfl⟩
  | some num_participants =>
    refine ⟨jrs.num_tcoms + 1, ?_⟩
    unfold poolWriteBegin
    dsimp only
    split
    · exact ⟨rfl, fun w none => nomatch none⟩
    · refine ⟨rfl, ?_⟩
      rintro w ⟨⟩
      exact ⟨rfl, rfl⟩

variable (jnlpool_size) in
/-- An iteration goes on by the length of the record when this fits into the reservation,
and keeps count of it in any case. -/
theorem poolWriteIteration_spec (jrs : JplRsrv) (w : PoolWrite) (mem : ByteMemory) :
    ∃ skipped, (poolWriteIteration jnlpool_size jrs w mem).1 = { jrs with memcpy_skipped := skipped } ∧
      (poolWriteIteration jnlpool_size jrs w mem).2.1.write_total = w.write_total + w.record.length ∧
      (w.write_total + w.record.length ≤ jrs.tot_jrec_len →
        (poolWriteIteration jnlpool_size jrs w mem).2.1.cur_write_addr =
          w.cur_write_addr + w.record.length) := by
  unfold poolWriteIteration
  dsimp only
  split
  · exact ⟨jrs.memcpy_skipped, rfl, rfl, fun fits => absurd fits (by omega)⟩
  · split
    · exact ⟨jrs.memcpy_skipped, rfl, rfl, fun _ => rfl⟩
    · exact ⟨true, rfl, rfl, fun _ => rfl⟩

/-- No process with a reservation notices a cleanup. -/
theorem PoolInv.cleanup_undisturbed (inv : PoolInv jnlpool_size origin s) {p : Nat}
    (ring : s'.ring = s.toRingState.afterCleanup JPL_PHASE2_COMMIT_ARRAY_SIZE p)
    (alive : s'.is_proc_alive = s.is_proc_alive) (jrs : s'.jrs = s.jrs) (writing : s'.writing = s.writing)
    (q : Nat) : Undisturbed s s' q := by
  have cleaned := RingState.afterCleanup_spec inv.ring p
  rw [← ring] at cleaned
  have entry : (s.jrs q).tot_jrec_len ≠ 0 →
      s'.ring.phase2_commit_array (s.jrs q).phase2_commit_index =
        s.ring.phase2_commit_array (s.jrs q).phase2_commit_index := by
    intro reserved
    obtain ⟨lives, writer⟩ := inv.writers q reserved
    rcases cleaned.salvaged (s.jrs q).phase2_commit_index with kept | ⟨_, dead, _⟩
    · exact kept
    · have notAlive := dead.notAlive
      rw [writer.owner, lives] at notAlive
      exact absurd notAlive (by decide)
  refine ⟨congrFun jrs q, congrFun writing q, ?_, ?_, entry⟩
  · intro reserved
    rw [alive]
    exact (inv.writers q reserved).1
  · intro reserved
    have writer := (inv.writers q reserved).2
    have member : (s.jrs q).phase2_commit_index ∈ ringList JPL_PHASE2_COMMIT_ARRAY_SIZE id
        s.ring.phase2_commit_index1 s.ring.phase2_commit_index2 := mem_ringList.mpr ⟨_, writer.inside, rfl⟩
    rw [cleaned.divides, List.mem_append] at member
    rcases member with passed | stays
    · -- Everything that was passed is complete.
      obtain ⟨n, inside, same⟩ := mem_ringList.mp passed
      rw [id] at same
      rw [same] at inside
      have complete := cleaned.passed _ (mem_ringList.mpr ⟨_, inside, rfl⟩)
      rw [entry reserved, writer.incomplete] at complete
      exact absurd complete (by decide)
    · obtain ⟨n, inside, same⟩ := mem_ringList.mp stays
      rw [← same]
      exact inside

/-- A step of `p` that changes none of its own data. -/
theorem PoolInv.unchanged (inv : PoolInv jnlpool_size origin s)
    (step : PoolStep jnlpool_size header null_rec JRT_BAD s s') (p : Nat)
    (rsrv : s'.ring.rsrv_addr = s.ring.rsrv_addr) (copied : s'.copied = s.copied)
    (all : ∀ q, Undisturbed s s' q) : PoolInv jnlpool_size origin s' := by
  refine inv.preserved step p (Nat.le_of_eq rsrv.symm) (fun q _ => all q) ?_ ?_ ?_ ?_
  · intro c member
    rw [copied] at member
    exact .inl member
  · intro reserved
    rw [(all p).jrs] at reserved
    exact ⟨(all p).alive reserved, (all p).writer reserved (inv.writers p reserved).2⟩
  · intro within
    rw [(all p).writing] at within
    rw [(all p).jrs]
    exact inv.reserved p within
  · intro _
    exact (all p).continues (all p).position

/-- A step after which `p` has no reservation. -/
theorem PoolInv.released (inv : PoolInv jnlpool_size origin s)
    (step : PoolStep jnlpool_size header null_rec JRT_BAD s s') (p : Nat)
    (rsrv : s'.ring.rsrv_addr = s.ring.rsrv_addr) (copied : s'.copied = s.copied)
    (others : ∀ q, q ≠ p → Undisturbed s s' q) (unreserved : (s'.jrs p).tot_jrec_len = 0)
    (between : s'.writing p = none) : PoolInv jnlpool_size origin s' := by
  refine inv.preserved step p (Nat.le_of_eq rsrv.symm) others ?_ ?_ ?_ ?_
  · intro c member
    rw [copied] at member
    exact .inl member
  · intro reserved
    exact absurd unreserved reserved
  · intro within
    exact absurd between within
  · intro reserved
    exact absurd unreserved reserved

/-- A step in which `p` goes on with its records. -/
theorem PoolInv.advanced (inv : PoolInv jnlpool_size origin s)
    (step : PoolStep jnlpool_size header null_rec JRT_BAD s s') (p : Nat) (jrs : JplRsrv)
    (writing : Option PoolWrite) (reserved : (s.jrs p).tot_jrec_len ≠ 0)
    (ring : s'.ring = s.ring) (alive : s'.is_proc_alive = s.is_proc_alive)
    (newJrs : s'.jrs = Function.update s.jrs p jrs)
    (newWriting : s'.writing = Function.update s.writing p writing)
    (start : jrs.start_write_addr = (s.jrs p).start_write_addr)
    (tot : jrs.tot_jrec_len = (s.jrs p).tot_jrec_len)
    (index : jrs.phase2_commit_index = (s.jrs p).phase2_commit_index)
    (position : (jrs.position writing).2 ≤ (s.jrs p).tot_jrec_len →
      (s.position p).2 ≤ (s.jrs p).tot_jrec_len ∧ (s.position p).1 ≤ (jrs.position writing).1 ∧
        (jrs.position writing).1 = (s.jrs p).start_write_addr + (jrs.position writing).2)
    (copied : ∀ c ∈ s'.copied, c ∈ s.copied ∨ MayCopy jnlpool_size s p (jrs.position writing).1 c) :
    PoolInv jnlpool_size origin s' := by
  have own : s'.jrs p = jrs := by
    rw [newJrs, Function.update_self]
  have ownPosition : s'.position p = jrs.position writing := by
    rw [PoolState.position, own, newWriting, Function.update_self]
  obtain ⟨lives, writer⟩ := inv.writers p reserved
  refine inv.preserved step p (Nat.le_of_eq (congrArg CommitRing.rsrv_addr ring.symm)) ?_ ?_ ?_ ?_ ?_
  · intro q differ
    apply Undisturbed.of_ring inv ring (congrFun alive q)
    · rw [newJrs, Function.update_of_ne differ]
    · rw [newWriting, Function.update_of_ne differ]
  · rw [ownPosition]
    exact copied
  · intro _
    rw [alive, ring, own, ownPosition]
    refine ⟨lives, ?_, ?_, ?_, ?_, ?_, ?_⟩
    · rw [index]
      exact writer.inside
    · rw [index]
      exact writer.owner
    · rw [index, start]
      exact writer.start
    · rw [index, tot]
      exact writer.tot
    · rw [index]
      exact writer.incomplete
    · rw [tot, start]
      intro within
      exact (position within).2.2
  · intro _
    rw [own, tot]
    exact reserved
  · intro _
    left
    rw [own, ownPosition, start, tot]
    refine ⟨rfl, rfl, ?_⟩
    intro within
    exact ⟨(position within).1, (position within).2.1⟩

/-- A new reservation. -/
theorem PoolInv.reserved_new (inv : PoolInv jnlpool_size origin s)
    (step : PoolStep jnlpool_size header null_rec JRT_BAD s s') (p len : Nat)
    (alive : s.is_proc_alive p = true) (unreserved : (s.jrs p).tot_jrec_len = 0)
    (notFull : ringNext JPL_PHASE2_COMMIT_ARRAY_SIZE s.ring.phase2_commit_index2 ≠
      s.ring.phase2_commit_index1)
    (ring : s'.ring = reserve JPL_PHASE2_COMMIT_ARRAY_SIZE p len s.ring)
    (same : s'.is_proc_alive = s.is_proc_alive)
    (jrs : s'.jrs = Function.update s.jrs p (reserveJrs len s.ring))
    (writing : s'.writing = s.writing) (copied : s'.copied = s.copied) :
    PoolInv jnlpool_size origin s' := by
  have between : s'.writing p = none := by
    by_contra within
    rw [writing] at within
    exact inv.reserved p within unreserved
  have own : s'.jrs p = reserveJrs len s.ring := by
    rw [jrs, Function.update_self]
  have position : s'.position p = (s.ring.rsrv_addr + SIZEOF_jnldata_hdr, SIZEOF_jnldata_hdr) := by
    rw [PoolState.position, between, own]
    rfl
  refine inv.preserved step p ?_ ?_ ?_ ?_ ?_ ?_
  · rw [ring]
    exact Nat.le_add_right _ _
  · intro q differ
    refine ⟨?_, congrFun writing q, ?_, ?_, ?_⟩
    · rw [jrs, Function.update_of_ne differ]
    · intro reserved
      rw [same]
      exact (inv.writers q reserved).1
    · intro reserved
      rw [ring]
      exact (inv.writers q reserved).2.inside.push inv.ring.first notFull
    · intro reserved
      rw [ring]
      exact Function.update_of_ne (inv.writers q reserved).2.inside.ne_end _ _
  · intro c member
    rw [copied] at member
    exact .inl member
  · intro _
    rw [same, ring, own, position]
    refine ⟨alive, inRing_pushed inv.ring.first notFull, ?_, ?_, ?_, ?_, fun _ => rfl⟩ <;>
      simp only [reserve, reserveJrs, Function.update_self]
  · intro within
    exact absurd between within
  · intro _
    right
    rw [own, position]
    exact ⟨Nat.le_refl _, Nat.le_add_right _ _⟩

/-- A step keeps the invariant. -/
theorem PoolStep.inv (step : PoolStep jnlpool_size header null_rec JRT_BAD s s')
    (inv : PoolInv jnlpool_size origin s) : PoolInv jnlpool_size origin s' := by
  have whole := step
  cases step with
  | start p absent =>
    refine inv.unchanged whole p rfl rfl fun q => ⟨rfl, rfl, ?_, ?_, fun _ => rfl⟩
    · intro reserved
      by_cases same : q = p
      · subst same
        exact Function.update_self _ _ _
      · exact (Function.update_of_ne same _ _).trans (inv.writers q reserved).1
    · intro reserved
      exact (inv.writers q reserved).2.inside
  | die p alive =>
    refine inv.released whole p rfl rfl ?_ ?_ (Function.update_self _ _ _)
    · intro q differ
      exact .of_ring inv rfl (Function.update_of_ne differ _ _) (Function.update_of_ne differ _ _)
        (Function.update_of_ne differ _ _)
    · dsimp only
      rw [Function.update_self]
      rfl
  | enter p alive free => exact inv.unchanged whole p rfl rfl fun q => .of_ring inv rfl rfl rfl rfl
  | leave p holds => exact inv.unchanged whole p rfl rfl fun q => .of_ring inv rfl rfl rfl rfl
  | reserve p len alive holds unreserved notFull =>
    exact inv.reserved_new whole p len alive unreserved notFull rfl rfl rfl rfl rfl
  | beginWrite p tcom record reserved between =>
    obtain ⟨num_tcoms, jrs, begun⟩ := poolWriteBegin_spec (s.jrs p) tcom record
    have position : JplRsrv.position (poolWriteBegin (s.jrs p) tcom record).1
        (poolWriteBegin (s.jrs p) tcom record).2 = s.position p := by
      rw [PoolState.position, between]
      cases after : (poolWriteBegin (s.jrs p) tcom record).2 with
      | none =>
        rw [jrs]
        rfl
      | some w =>
        obtain ⟨address, total⟩ := begun w after
        exact Prod.ext address total
    refine inv.advanced whole p _ _ reserved rfl rfl rfl rfl ?_ ?_ ?_ ?_ (fun c member => .inl member)
    · rw [jrs]
    · rw [jrs]
    · rw [jrs]
    · rw [position]
      intro within
      exact ⟨within, Nat.le_refl _, (inv.writers p reserved).2.placed within⟩
  | iterate p w within more waited =>
    have reserved := inv.reserved_of_some within
    have placed := (inv.writers p reserved).2.placed
    have here : s.position p = (w.cur_write_addr, w.write_total) := by
      rw [PoolState.position, within]
      rfl
    obtain ⟨skipped, jrs, total, address⟩ := poolWriteIteration_spec jnlpool_size
      (s.jrs p) w s.jnldata
    rw [here] at placed
    refine inv.advanced whole p _ _ reserved rfl rfl rfl rfl ?_ ?_ ?_ ?_ ?_
    · rw [PoolState.iteration, jrs]
    · rw [PoolState.iteration, jrs]
    · rw [PoolState.iteration, jrs]
    · rw [here]
      intro fits
      simp only [JplRsrv.position, PoolState.iteration] at fits placed ⊢
      rw [total] at fits ⊢
      rw [address fits]
      have start := placed (by omega)
      omega
    · intro c member
      simp only [JplRsrv.position, PoolState.iteration]
      dsimp only at member
      split at member
      · rename_i copies
        rcases List.mem_cons.mp member with rfl | old
        · right
          have start := placed (Nat.le_trans (Nat.le_add_right _ _) copies.1)
          have room := waited copies
          have fits := copies.1
          unfold PoolWrite.Waited at room
          simp only at start
          refine ⟨reserved, ?_, ?_, ?_, ?_⟩ <;> dsimp only
          · omega
          · omega
          · exact Nat.le_of_eq (address copies.1).symm
          · omega
        · exact .inl old
      · exact .inl member
  | endWrite p w within done =>
    have reserved := inv.reserved_of_some within
    have position : (poolWriteEnd (s.jrs p) w).position none = s.position p := by
      rw [PoolState.position, within]
      rfl
    refine inv.advanced whole p _ _ reserved rfl rfl rfl rfl rfl rfl rfl ?_ (fun c member => .inl member)
    rw [position]
    intro fits
    exact ⟨fits, Nat.le_refl _, (inv.writers p reserved).2.placed fits⟩
  | complete p reserved =>
    refine inv.released whole p rfl rfl ?_ ?_ (Function.update_self _ _ _)
    · intro q differ
      refine ⟨Function.update_of_ne differ _ _, Function.update_of_ne differ _ _,
        fun some => (inv.writers q some).1, fun some => (inv.writers q some).2.inside, ?_⟩
      intro some
      apply Function.update_of_ne
      intro same
      -- Two processes do not own one entry.
      have owner := (inv.writers q some).2.owner
      rw [same, (inv.writers p reserved).2.owner] at owner
      exact differ owner.symm
    · dsimp only
      rw [Function.update_self]
  | cleanup p alive =>
    have ring := PoolState.cleanup_ring jnlpool_size header null_rec s p
    refine inv.unchanged whole p ?_ rfl (inv.cleanup_undisturbed ring rfl rfl rfl)
    dsimp only
    rw [ring]
    exact (RingState.afterCleanup_spec inv.ring p).rsrv

/-! ## The copy -/

/-- An iteration of `jnl_pool_write`, after its wait, changes no byte that was copied
before and lies at or above the published address. -/
theorem PoolInv.iteration_keeps (inv : PoolInv jnlpool_size origin s) {p : Nat} {w : PoolWrite}
    (within : s.writing p = some w)
    (waited : w.Copies jnlpool_size (s.jrs p) → w.Waited jnlpool_size s.ring.write_addr)
    {c : Nat × Nat} (member : c ∈ s.copied) {addr : Nat} (above : c.1 ≤ addr) (below : addr < c.1 + c.2)
    (unpublished : s.ring.write_addr ≤ addr) :
    (s.iteration jnlpool_size p w).2.2 (addr % jnlpool_size) = s.jnldata (addr % jnlpool_size) := by
  have reserved := inv.reserved_of_some within
  have writer := (inv.writers p reserved).2
  have here : s.position p = (w.cur_write_addr, w.write_total) := by
    rw [PoolState.position, within]
    rfl
  unfold PoolState.iteration poolWriteIteration
  dsimp only
  split
  · rfl
  · rename_i fits
    split
    · rename_i small
      have room := waited ⟨by omega, by omega⟩
      unfold PoolWrite.Waited at room
      have placed := writer.placed
      have fresh := inv.fresh c member p reserved
      rw [here] at placed fresh
      dsimp only at placed fresh
      have start := placed (by omega)
      have lower := (inv.bounds reserved).1
      have ahead := inv.withinPool c member
      apply poolMemcpy_of_apart (Nat.mod_lt _ (by omega))
      intro i inRecord same
      have near := eq_of_mod_eq_of_near same (by omega) (by omega)
      have apart := fresh (by omega)
      omega
    · rfl

/-! ## Whole runs -/

theorem PoolState.Initial.inv (initial : s.Initial origin) : PoolInv jnlpool_size origin s := by
  have noneCopied : ∀ c, c ∉ s.copied := by
    rw [initial.copied]
    exact fun c => List.not_mem_nil
  refine ⟨initial.ring.inv, ?_, ?_, ?_, ?_, ?_, ?_⟩
  · intro p reserved
    exact absurd (initial.jrs p) reserved
  · intro p within
    exact absurd (initial.writing p) within
  · intro p q _ reserved
    exact absurd (initial.jrs p) reserved
  · intro c member
    exact absurd member (noneCopied c)
  · intro c member
    exact absurd member (noneCopied c)
  · intro c member
    exact absurd member (noneCopied c)

theorem PoolInv.run (inv : PoolInv jnlpool_size origin s)
    (run : Relation.ReflTransGen (PoolStep jnlpool_size header null_rec JRT_BAD) s s') :
    PoolInv jnlpool_size origin s' := by
  induction run with
  | refl => exact inv
  | tail _ step ih => exact step.inv ih

theorem PoolInv.run_write_addr_le (inv : PoolInv jnlpool_size origin s)
    (run : Relation.ReflTransGen (PoolStep jnlpool_size header null_rec JRT_BAD) s s') :
    s.ring.write_addr ≤ s'.ring.write_addr := by
  induction run with
  | refl => exact Nat.le_refl _
  | tail before step ih =>
    exact Nat.le_trans ih (step.write_addr_le (inv.run before))

end Invariant

/-- What the ring of the journal pool promises in a state `s`: a cleanup goes to the
first incomplete entry, publishes its start and salvages no entry of a live process; the
published address never decreases, everything below it is complete, and a copy into the
pool spares the bytes at or above it. -/
structure PoolState.Published (jnlpool_size origin : Nat) (header : Nat → Nat → List UInt8)
    (null_rec : CommitEntry → List UInt8) (JRT_BAD : UInt8) (s : PoolState) : Prop where
  cleanup : ∀ p, PublishesFirst JPL_PHASE2_COMMIT_ARRAY_SIZE origin s.toRingState
    (repl_phase2_cleanup jnlpool_size header null_rec s.is_proc_alive p (s.crit == some p) s.ring
      s.jnldata).1
  write_addr_le : ∀ s', Relation.ReflTransGen (PoolStep jnlpool_size header null_rec JRT_BAD) s s' →
    s.ring.write_addr ≤ s'.ring.write_addr
  completeBelow : CompleteBelow origin s.toRingState
  copySpares : ∀ p w, s.writing p = some w → (s.jrs p).tot_jrec_len ≤ jnlpool_size →
    w.Waited jnlpool_size s.ring.write_addr →
    ∀ c ∈ s.copied, ∀ addr, c.1 ≤ addr → addr < c.1 + c.2 → s.ring.write_addr ≤ addr →
      (poolWriteIteration jnlpool_size (s.jrs p) w s.jnldata).2.2 (addr % jnlpool_size) =
        s.jnldata (addr % jnlpool_size)

/-- The same for the journal buffer, whatever a salvage does to it. -/
structure RingState.Published (origin : Nat) (s : RingState) : Prop where
  cleanup : ∀ (α : Type) (jnl_phase2_salvage : CommitEntry → α → α) p mem,
    PublishesFirst JNL_PHASE2_COMMIT_ARRAY_SIZE origin s
      (jnl_phase2_cleanup jnl_phase2_salvage s.is_proc_alive p (s.crit == some p) s.ring mem).1
  freeaddr_le : ∀ s', Relation.ReflTransGen (RingStep JNL_PHASE2_COMMIT_ARRAY_SIZE) s s' →
    s.ring.write_addr ≤ s'.ring.write_addr
  completeBelow : CompleteBelow origin s

/-- Both rings keep their promises in every reachable state. -/
theorem phase2_commit_rings_publish_what_is_complete :
    (∀ (jnlpool_size origin : Nat) (header : Nat → Nat → List UInt8)
      (null_rec : CommitEntry → List UInt8) (JRT_BAD : UInt8) (s₀ s : PoolState),
      s₀.Initial origin →
      Relation.ReflTransGen (PoolStep jnlpool_size header null_rec JRT_BAD) s₀ s →
      s.Published jnlpool_size origin header null_rec JRT_BAD) ∧
    (∀ (origin : Nat) (s₀ s : RingState), s₀.Initial JNL_PHASE2_COMMIT_ARRAY_SIZE origin →
      Relation.ReflTransGen (RingStep JNL_PHASE2_COMMIT_ARRAY_SIZE) s₀ s → s.Published origin) := by
  constructor
  · intro jnlpool_size origin header null_rec JRT_BAD s₀ s initial run
    have inv : PoolInv jnlpool_size origin s := initial.inv.run run
    refine ⟨?_, ?_, inv.ring.completeBelow, ?_⟩
    · intro p
      exact inv.ring.publishes _ p _ _
    · intro s' further
      exact inv.run_write_addr_le further
    · intro p w within _ waited c member addr above below unpublished
      exact inv.iteration_keeps within (fun _ => waited) member above below unpublished
  · intro origin s₀ s initial run
    have inv := initial.inv.run run
    refine ⟨?_, ?_, inv.completeBelow⟩
    · intro α jnl_phase2_salvage p mem
      exact inv.publishes _ p _ mem
    · intro s' further
      exact inv.run_write_addr_le further

/-- A pool in which no process has done anything. -/
def PoolState.untouched : PoolState where
  ring := ⟨fun _ => ⟨0, 0, 0, 0, true⟩, 0, 0, 0, 0, 0⟩
  is_proc_alive := fun _ => false
  crit := none
  reservations := []
  cleaned := []
  jrs := fun _ => JplRsrv.unreserved
  writing := fun _ => none
  jnldata := fun _ => 0
  copied := []

theorem PoolState.untouched_initial : untouched.Initial 0 :=
  ⟨⟨by decide, rfl, rfl, rfl, rfl, rfl, rfl⟩, fun _ => rfl, fun _ => rfl, rfl⟩

instance (jnlpool_size write_addr : Nat) (w : PoolWrite) :
    Decidable (w.Waited jnlpool_size write_addr) :=
  inferInstanceAs
    (Decidable ((w.cur_write_addr + w.record.length : Int) - jnlpool_size ≤ write_addr))

/-- A header with the length of its transaction and that of the one before. -/
def twoLengths (tot_jrec_len prev_jrec_len : Nat) : List UInt8 :=
  [UInt8.ofNat tot_jrec_len, 0, 0, 0, UInt8.ofNat prev_jrec_len, 0, 0, 0]

/-- A record that fills the place of a transaction. -/
def filler (entry : CommitEntry) : List UInt8 :=
  List.replicate (entry.tot_jrec_len - SIZEOF_jnldata_hdr) 9

/-- A run in a pool of 96 bytes. Processes 7 and 8 reserve 64 bytes each. Process 8 could
not go past the end of the pool before 7 has written, completed its entry and cleaned up.
In the state `s` it has copied 16 bytes and is about to copy 40, of which 32 go to the
beginning of the pool. Then it dies, and a cleanup by process 9, which has reserved as
well, salvages its entry; that is the state `s'`. -/
theorem PoolState.untouched_salvages : ∃ s s' : PoolState,
    Relation.ReflTransGen (PoolStep 96 twoLengths filler 255) untouched s ∧
      (s.ring.write_addr = 64 ∧ s.writing 8 = some ⟨List.replicate 40 2, 1, 24, 88⟩ ∧
        s.copied = [(72, 16), (8, 56)]) ∧
      Relation.ReflTransGen (PoolStep 96 twoLengths filler 255) untouched s' ∧
      s'.ring.write_addr = 128 ∧ s'.cleaned = [⟨7, 0, 64, 0, true⟩, ⟨8, 64, 64, 64, true⟩] ∧
        s'.reservations = [⟨7, 0, 64⟩, ⟨8, 64, 64⟩, ⟨9, 128, 64⟩] := by
  have seven : Relation.ReflTransGen (PoolStep 96 twoLengths filler 255) untouched _ :=
    .single (.start _ 7 rfl)
  have eight := seven.tail (.start _ 8 rfl)
  have reserved := ((eight.tail (.enter _ 7 rfl rfl)).tail
    (.reserve _ 7 64 rfl rfl rfl (by decide +kernel))).tail (.leave _ 7 rfl)
  have both := ((reserved.tail (.enter _ 8 rfl rfl)).tail
    (.reserve _ 8 64 rfl rfl rfl (by decide +kernel))).tail (.leave _ 8 rfl)
  have begun := both.tail (.beginWrite _ 7 none (List.replicate 56 1) (by decide +kernel) rfl)
  have copied := begun.tail (.iterate _ 7 _ rfl (by decide +kernel) (by decide +kernel))
  have completed := (copied.tail (.endWrite _ 7 _ rfl rfl)).tail
    (.complete _ 7 (by decide +kernel))
  have cleaned := completed.tail (.cleanup _ 7 rfl)
  have first := cleaned.tail (.beginWrite _ 8 none (List.replicate 16 2) (by decide +kernel) rfl)
  have written := (first.tail (.iterate _ 8 _ rfl (by decide +kernel) (by decide +kernel))).tail
    (.endWrite _ 8 _ rfl rfl)
  have second := written.tail (.beginWrite _ 8 none (List.replicate 40 2) (by decide +kernel) rfl)
  have wrapped := second.tail (.iterate _ 8 _ rfl (by decide +kernel) (by decide +kernel))
  have dead := wrapped.tail (.die _ 8 rfl)
  have nine := (dead.tail (.start _ 9 rfl)).tail (.enter _ 9 rfl rfl)
  have waiting := nine.tail (.reserve _ 9 64 rfl rfl rfl (by decide +kernel))
  have salvaged := waiting.tail (.cleanup _ 9 rfl)
  refine ⟨_, _, second, ⟨?_, rfl, ?_⟩, salvaged, ?_, ?_, ?_⟩
  all_goals decide +kernel

/-- A run of the journal buffer to the end of its ring. The entry in the last slot is
complete, and the next slot is the first one. -/
theorem RingState.untouched_wraps : ∃ s : RingState,
    Relation.ReflTransGen (RingStep JNL_PHASE2_COMMIT_ARRAY_SIZE)
        PoolState.untouched.toRingState s ∧
      s.ring.phase2_commit_index1 = 4095 ∧ s.ring.phase2_commit_index2 = 0 ∧
      (s.ring.phase2_commit_array 4095).write_complete = true := by
  have initial : PoolState.untouched.toRingState.Initial JNL_PHASE2_COMMIT_ARRAY_SIZE 0 :=
    ⟨by decide, rfl, rfl, rfl, rfl, rfl, rfl⟩
  have started : Relation.ReflTransGen (RingStep JNL_PHASE2_COMMIT_ARRAY_SIZE)
      PoolState.untouched.toRingState _ := .single (.start _ 7 rfl)
  obtain ⟨settled, run, alive, free, first, second⟩ :=
    (initial.inv.run started).reaches (p := 7) (by decide) rfl rfl rfl rfl 64
      (show 4095 < JNL_PHASE2_COMMIT_ARRAY_SIZE by decide)
  obtain ⟨s, further, index1, index2, last⟩ :=
    ((initial.inv.run started).run run).wraps (by decide) alive free first second 64
  exact ⟨s, (started.trans run).trans further, index1, index2, congrArg _ last⟩

/-- The pool while a copy goes around its end and after a salvage, and the buffer at the
end of its ring: what a cleanup of the pool published was 64 and 128. -/
theorem phase2_commit_rings_publish_through_salvage :
    (∃ s s' : PoolState, s.ring.write_addr = 64 ∧
      s.writing 8 = some ⟨List.replicate 40 2, 1, 24, 88⟩ ∧ s.copied = [(72, 16), (8, 56)] ∧
      s.Published 96 0 twoLengths filler 255 ∧ s'.ring.write_addr = 128 ∧
      s'.cleaned = [⟨7, 0, 64, 0, true⟩, ⟨8, 64, 64, 64, true⟩] ∧
      s'.reservations = [⟨7, 0, 64⟩, ⟨8, 64, 64⟩, ⟨9, 128, 64⟩] ∧
      s'.Published 96 0 twoLengths filler 255) ∧
    ∃ s : RingState, s.ring.phase2_commit_index1 = 4095 ∧ s.ring.phase2_commit_index2 = 0 ∧
      (s.ring.phase2_commit_array 4095).write_complete = true ∧ s.Published 0 := by
  obtain ⟨s, s', run, published, run', published', passed, ordered⟩ := PoolState.untouched_salvages
  obtain ⟨t, further, index1, index2, complete⟩ := RingState.untouched_wraps
  constructor
  · exact ⟨s, s', published.1, published.2.1, published.2.2,
      phase2_commit_rings_publish_what_is_complete.1 96 0 twoLengths filler 255 _ s
        PoolState.untouched_initial run,
      published', passed, ordered,
      phase2_commit_rings_publish_what_is_complete.1 96 0 twoLengths filler 255 _ s'
        PoolState.untouched_initial run'⟩
  · exact ⟨t, index1, index2, complete,
      phase2_commit_rings_publish_what_is_complete.2 0 _ t
        ⟨by decide, rfl, rfl, rfl, rfl, rfl, rfl⟩ further⟩

end Ydb
