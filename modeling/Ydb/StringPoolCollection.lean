import Ydb.StringPoolMoves

/-!
# Garbage collection of the string pool

Without alignment, a collection keeps the bytes of every string in use, in the
space that was counted for them, and leaves the room that was asked for. With
alignment it does not, and the program does not align strings.
-/

namespace Ydb

open Lib

/-! ## Expansion -/

/-- The rounds of `expandLoop`: the factor goes down to 1, then the increment is halved. -/
def expandNeeds (pool : Spdesc) (stp_incr : Int) (incr_factor : Nat) : Nat :=
  if incr_factor ≤ 1 then stp_incr.toNat + 1 else incr_factor + (pool.top - pool.base) + 1

/-- A pool that is as large as needed. -/
def Expanded (env : StpEnv) (pool : Spdesc) (space_needed : Int) (pool' : Spdesc) : Prop :=
  ∃ attempt addr size, env.malloc attempt (size + SIZEOF_CHAR_PTR + 2 * env.os_page_size) = some addr ∧
    space_needed + (pool.top - pool.base : Nat) ≤ size ∧ pool' = stp_init env pool addr size

/-- The loop expands the pool or fails. -/
theorem expandLoop_spec {env : StpEnv} {pool : Spdesc} {space_needed : Int}
    {non_mandatory_expansion : Bool} (rounds attempt : Nat) {stp_incr : Int} (incr_factor : Nat)
    (stop : Bool) (nonnegative : 0 ≤ stp_incr)
    (mandatory : non_mandatory_expansion = false → 0 < space_needed)
    (enough : expandNeeds pool stp_incr incr_factor ≤ rounds) :
    ∃ e, expandLoop env pool space_needed non_mandatory_expansion rounds attempt stp_incr incr_factor
        stop = some e ∧ e.error ≠ some .stpcrit ∧
      (e.error = none → (non_mandatory_expansion = true ∧ e.pool = pool) ∨
        Expanded env pool space_needed e.pool) := by
  induction rounds generalizing attempt stp_incr incr_factor stop with
  | zero =>
    rw [expandNeeds] at enough
    split at enough <;> omega
  | succ rounds ih =>
    rw [expandLoop]
    dsimp only
    generalize clamped : (if stp_incr < space_needed then space_needed else stp_incr) = incr
    have atLeast : space_needed ≤ incr := by
      rw [← clamped]
      split <;> omega
    have positive : 0 ≤ incr := by
      rw [← clamped]
      split <;> omega
    split
    next gaveUp =>
      rw [Bool.and_eq_true] at gaveUp
      exact ⟨_, rfl, nofun, fun _ => .inl ⟨gaveUp.1, rfl⟩⟩
    next goesOn =>
      split
      · exact ⟨_, rfl, nofun, nofun⟩
      · split
        next addr granted =>
          refine ⟨_, rfl, nofun, fun _ => .inr ⟨attempt, addr, _, granted, ?_, rfl⟩⟩
          omega
        · split
          · exact ⟨_, rfl, nofun, nofun⟩
          next retries =>
            have more : space_needed < incr := by simpa using retries
            have notClamped : incr = stp_incr := by
              rw [← clamped] at more ⊢
              split at more
              · omega
              · exact if_neg ‹_›
            have nonzero : incr ≠ 0 := by
              intro zero
              apply goesOn
              rw [zero, Bool.and_eq_true]
              refine ⟨?_, rfl⟩
              cases flag : non_mandatory_expansion with
              | true => rfl
              | false =>
                have := mandatory flag
                omega
            rw [expandNeeds] at enough
            split
            next large =>
              apply ih
              · exact Int.natCast_nonneg _
              · rw [if_neg (by omega)] at enough
                rw [expandNeeds]
                split
                · have small : incr_factor - 1 = 1 := by omega
                  have quarter : (pool.top - pool.base) * 1 / STP_NUM_INCRS ≤ pool.top - pool.base := by
                    rw [Nat.mul_one]
                    exact Nat.div_le_self _ _
                  rw [small, Int.toNat_natCast]
                  omega
                · omega
            next smallest =>
              apply ih
              · omega
              · rw [if_pos (Nat.not_lt.mp smallest)] at enough
                rw [expandNeeds, if_pos (Nat.not_lt.mp smallest)]
                omega

/-- There is room for the size that was asked for, below the end of the memory. -/
theorem stp_init_bounds (env : StpEnv) (pool : Spdesc) (addr size : Nat) :
    addr + size ≤ (stp_init env pool addr size).top ∧
      (stp_init env pool addr size).top ≤ addr + (size + SIZEOF_CHAR_PTR + 2 * env.os_page_size) := by
  have small := Nat.mod_lt (addr + size + SIZEOF_CHAR_PTR + 2 * env.os_page_size) env.os_page_size_pos
  simp only [stp_init]
  omega

theorem ROUND_UP2_le (value : Nat) : value ≤ ROUND_UP2 value NATIVE_WSIZE := by
  rw [ROUND_UP2, NATIVE_WSIZE]
  omega

/-! ## Collection -/

/-- A pool, and strings that end in its used part. -/
structure StpState.Valid (s : StpState) (live : List Nat) : Prop where
  used : s.stringpool.base ≤ s.stringpool.free
  limit : s.stringpool.free ≤ s.stringpool.top
  distinct : live.Nodup
  inside : ∀ c ∈ live, MSTR_STPG_ADD s c = true → (s.mstrs c).finish ≤ s.stringpool.free

/-- New memory is not memory of the pool. -/
def StpEnv.Fresh (env : StpEnv) (pool : Spdesc) : Prop :=
  ∀ attempt size addr, env.malloc attempt size = some addr →
    addr + size ≤ pool.base ∨ pool.top + SIZEOF_CHAR_PTR ≤ addr

theorem StpState.mem_array {s : StpState} {live : List Nat} {c : Nat} :
    c ∈ s.array live ↔ c ∈ live ∧ MSTR_STPG_ADD s c = true := by
  rw [StpState.array, stpg_sort, List.mem_insertionSort, List.mem_filter]

theorem StpState.array_sorted (s : StpState) (live : List Nat) :
    (s.array live).Pairwise fun a b => (s.mstrs a).addr ≤ (s.mstrs b).addr := by
  have : Std.Total fun a b => (s.mstrs a).addr ≤ (s.mstrs b).addr := ⟨fun a b => Nat.le_total _ _⟩
  have : IsTrans Nat fun a b => (s.mstrs a).addr ≤ (s.mstrs b).addr := ⟨fun _ _ _ => Nat.le_trans⟩
  exact List.pairwise_insertionSort _ _

theorem StpState.array_nodup {s : StpState} {live : List Nat} (distinct : live.Nodup) :
    (s.array live).Nodup :=
  (List.perm_insertionSort _ _).nodup_iff.mpr (distinct.filter _)

theorem MSTR_STPG_ADD_iff {s : StpState} {c : Nat} : MSTR_STPG_ADD s c = true ↔
    0 < (s.mstrs c).len ∧ s.stringpool.base ≤ (s.mstrs c).addr ∧
      (s.mstrs c).addr < s.stringpool.free := by
  simp [MSTR_STPG_ADD, Nat.pos_iff_ne_zero, and_assoc]

/-- A collection of the pool `s'.stringpool` was successful. -/
structure Collected (s : StpState) (live : List Nat) (space_asked : Nat) (s' : StpState) : Prop where
  strings : ∀ c ∈ live, MSTR_STPG_ADD s c = true →
    s'.stringpool.base ≤ (s'.mstrs c).addr ∧ (s'.mstrs c).finish ≤ s'.stringpool.free ∧
    (s'.mstrs c).len = (s.mstrs c).len ∧
    s'.mem.read (s'.mstrs c).addr (s'.mstrs c).len = s.mem.read (s.mstrs c).addr (s.mstrs c).len
  others : ∀ c, c ∉ s.array live → s'.mstrs c = s.mstrs c
  frame : ∀ a, a < s'.stringpool.base ∨ s'.stringpool.free ≤ a → s'.mem a = s.mem a
  accounted : s'.stringpool.free =
    s'.stringpool.base + totalSpace false s.mstrs (s.array live)
  room : s'.stringpool.free + space_asked ≤ s'.stringpool.top
  safe : ∀ move ∈ s'.moves, move ∈ s.moves ∨ ∀ p ∈ move.pending,
    p.finish ≤ move.target ∨ move.target + move.blklen ≤ p.addr

/-- The strings are moved to an empty pool, or together in their own one. -/
theorem collected_of_moved {s t : StpState} {live : List Nat} {space_asked : Nat} (copies : Bool)
    (valid : s.Valid live) (mem : t.mem = s.mem) (mstrs : t.mstrs = s.mstrs)
    (moves : t.moves = s.moves) (empty : t.stringpool.free = t.stringpool.base)
    (clear : t.stringpool.base ≤ s.stringpool.base ∨ s.stringpool.free ≤ t.stringpool.base)
    (room : t.stringpool.base + totalSpace false s.mstrs (s.array live) + space_asked ≤
      t.stringpool.top) :
    Collected s live space_asked
      (t.moved (moveBlocks false copies (s.array live).length (s.array live) t.moving)) := by
  have start : t.moving = ⟨s.mem, s.mstrs, t.stringpool.base, s.moves⟩ := by
    rw [StpState.moving, mem, mstrs, moves, empty]
  rw [start]
  obtain ⟨moving, freed⟩ := @moveBlocks_all ⟨s.mem, s.mstrs, t.stringpool.base, s.moves⟩ _ copies
    (StpState.array_nodup valid.distinct) (s.array_sorted live)
    (by
      intro c member
      exact (MSTR_STPG_ADD_iff.mp (StpState.mem_array.mp member).2).1)
    (by
      rcases clear with below | above
      · left
        intro c member
        exact Nat.le_trans below (MSTR_STPG_ADD_iff.mp (StpState.mem_array.mp member).2).2.1
      · right
        intro c member
        obtain ⟨isLive, inPool⟩ := StpState.mem_array.mp member
        exact Nat.le_trans (valid.inside c isLive inPool) above)
  refine ⟨?_, moving.waiting, moving.frame, freed, ?_, moving.safe⟩
  · intro c isLive inPool
    exact moving.moved c (StpState.mem_array.mpr ⟨isLive, inPool⟩)
  · show (moveBlocks false copies _ _ _).free + space_asked ≤ t.stringpool.top
    rw [freed]
    exact room

/-- Only the strings' places, the memory and the pool matter. -/
theorem Collected.congr {s s' s'' : StpState} {live : List Nat} {space_asked : Nat}
    (collected : Collected s live space_asked s') (mem : s''.mem = s'.mem)
    (mstrs : s''.mstrs = s'.mstrs) (moves : s''.moves = s'.moves)
    (base : s''.stringpool.base = s'.stringpool.base)
    (free : s''.stringpool.free = s'.stringpool.free)
    (top : s''.stringpool.top = s'.stringpool.top) : Collected s live space_asked s'' := by
  obtain ⟨strings, others, frame, accounted, room, safe⟩ := collected
  refine ⟨?_, ?_, ?_, ?_, ?_, ?_⟩
  · rw [mem, mstrs, base, free]
    exact strings
  · rw [mstrs]
    exact others
  · rw [mem, base, free]
    exact frame
  · rw [base, free]
    exact accounted
  · rw [free, top]
    exact room
  · rw [moves]
    exact safe

theorem Collected.setCounters {s s' : StpState} {live : List Nat} {space_asked : Nat}
    (collected : Collected s live space_asked s') (isRts : Bool) (counters : StpCounters) :
    Collected s live space_asked (s'.setCounters isRts counters) := by
  cases isRts <;> exact collected.congr rfl rfl rfl rfl rfl rfl

theorem Collected.keepPool {s s' : StpState} {live : List Nat} {space_asked : Nat}
    (collected : Collected s live space_asked s') (isRts : Bool) :
    Collected s live space_asked (s'.keepPool isRts) := by
  cases isRts <;> exact collected.congr rfl rfl rfl rfl rfl rfl

section Results

variable {env : StpEnv} {s : StpState} {live : List Nat} {space_asked : Nat}

/-- An expansion, and what it keeps. -/
theorem expandPool_spec (unaligned : env.mstr_native_align = false) (valid : s.Valid live)
    (fresh : env.Fresh s.stringpool) {non_mandatory_expansion : Bool}
    {space_after_compact space_needed : Int}
    (after : space_after_compact = ((s.stringpool.top - s.stringpool.base : Nat) : Int) -
      totalSpace false s.mstrs (s.array live))
    (needed : space_needed = (ROUND_UP2 space_asked NATIVE_WSIZE : Nat) - space_after_compact)
    (mandatory : non_mandatory_expansion = false ↔ 0 < space_needed) (isRts : Bool)
    (counters : StpCounters) {t : StpState} (mem : t.mem = s.mem) (mstrs : t.mstrs = s.mstrs)
    (moves : t.moves = s.moves) (base : t.stringpool.base = s.stringpool.base)
    (free : t.stringpool.free = s.stringpool.base) (top : t.stringpool.top = s.stringpool.top) :
    ∃ t' error, expandPool env (s.array live) space_after_compact space_needed
        non_mandatory_expansion isRts s.stringpool.free counters t = some (t', error) ∧
      error ≠ some .stpcrit ∧ (error = none → Collected s live space_asked t') := by
  have used := valid.used
  have limit := valid.limit
  have roundedUp := ROUND_UP2_le space_asked
  have factor : (t.stringpool.top - t.stringpool.base) * counters.incr_factor / STP_NUM_INCRS ≤
      (t.stringpool.top - t.stringpool.base) * counters.incr_factor := Nat.div_le_self _ _
  obtain ⟨e, expanding, notCritical, result⟩ := @expandLoop_spec env t.stringpool _ _
    (expandRounds t.stringpool counters.incr_factor) 0 _ counters.incr_factor
    t.stop_non_mandatory_expansion (Int.natCast_nonneg
      ((t.stringpool.top - t.stringpool.base) * counters.incr_factor / STP_NUM_INCRS))
    mandatory.mp (by
      rw [expandNeeds, expandRounds]
      split
      next small =>
        have atMost : (t.stringpool.top - t.stringpool.base) * counters.incr_factor ≤
            t.stringpool.top - t.stringpool.base := by
          have scaled := Nat.mul_le_mul_left (t.stringpool.top - t.stringpool.base) small
          rw [Nat.mul_one] at scaled
          exact scaled
        rw [Int.toNat_natCast]
        omega
      · omega)
  rw [expandPool, expanding, Option.bind_eq_bind, Option.bind_some]
  dsimp only
  cases failed : e.error with
  | some error =>
    refine ⟨_, some error, rfl, ?_, nofun⟩
    rw [← failed]
    exact notCritical
  | none =>
    rcases result failed with ⟨optional, same⟩ | ⟨attempt, addr, size, granted, large, isNew⟩
    · -- The pool is what it was, and the strings are moved together.
      have notNeeded : ¬ 0 < space_needed := by
        rw [← mandatory, optional]
        decide
      have enoughRoom : ¬ space_after_compact < space_needed := by omega
      dsimp only
      rw [if_neg (by rw [same]; exact not_not.mpr rfl), if_neg enoughRoom, unaligned]
      refine ⟨_, none, rfl, nofun, fun _ => ?_⟩
      apply Collected.setCounters
      refine @collected_of_moved s _ live space_asked false valid mem mstrs moves ?_ ?_ ?_
      · rw [same, free, base]
      · left
        rw [same, base]
      · rw [same, base, top]
        omega
    · -- The strings are copied to the new pool.
      obtain ⟨lower, _⟩ := stp_init_bounds env t.stringpool addr size
      have newBase : e.pool.base = addr := by
        rw [isNew]
        rfl
      have newTop : addr + size ≤ e.pool.top := by
        rw [isNew]
        exact lower
      have elsewhere := fresh attempt _ addr granted
      have moved : t.stringpool.base ≠ e.pool.base := by
        rw [newBase, base]
        simp only [SIZEOF_CHAR_PTR] at elsewhere
        omega
      dsimp only
      rw [if_pos moved, unaligned]
      refine ⟨_, none, rfl, nofun, fun _ => ?_⟩
      apply Collected.setCounters
      apply Collected.keepPool
      refine @collected_of_moved s _ live space_asked true valid mem mstrs moves ?_ ?_ ?_
      · rw [isNew]
        rfl
      · rw [newBase]
        omega
      · rw [newBase]
        show addr + _ + space_asked ≤ e.pool.top
        rw [base, top] at large
        omega

/-- A collection returns, and unless it fails for lack of memory or of permission to
expand, every string in use has its bytes, inside of the pool; the strings take the
space that was counted; there is the room that was asked for; and no move touched a
string that was still to be moved. -/
theorem stp_gcol_collects (unaligned : env.mstr_native_align = false) (valid : s.Valid live)
    (fresh : env.Fresh s.stringpool) : ∃ s' error, stp_gcol env live space_asked s = some (s', error) ∧
      (error = none ∨ error = some .stpcrit → Collected s live space_asked s') := by
  have finish : ∀ {t : StpState}, Collected s live space_asked t →
      Collected s live space_asked (finishCollection t space_asked).1 := by
    intro t collected
    rw [finishCollection]
    dsimp only
    split
    · exact collected.congr rfl rfl rfl rfl rfl rfl
    · exact collected.congr rfl rfl rfl rfl rfl rfl
  rw [stp_gcol]
  dsimp only
  split
  · exact ⟨_, _, rfl, nofun⟩
  next known =>
    rw [unaligned]
    generalize after : ((s.stringpool.top - s.stringpool.base : Nat) : Int) -
      totalSpace false s.mstrs (s.array live) = space_after_compact
    generalize needed : ((ROUND_UP2 space_asked NATIVE_WSIZE : Nat) : Int) - space_after_compact =
      space_needed
    generalize (if space_after_compact <
        (STP_LOWRECLAIM_LEVEL (s.stringpool.top - s.stringpool.base) : Nat) then
      s.counters.low_reclaim_passes + 1 else 0) = passes
    split
    next expands =>
      generalize optional : (!decide (0 < space_needed) && !s.stop_non_mandatory_expansion && _) =
        non_mandatory_expansion at expands ⊢
      have mandatory : non_mandatory_expansion = false ↔ 0 < space_needed := by
        rw [← optional] at expands ⊢
        by_cases positive : 0 < space_needed
        · simp [positive]
        · have isTrue := expands.resolve_left positive
          rw [isTrue]
          simp [positive]
      obtain ⟨t, error, expanded, notCritical, result⟩ := expandPool_spec
        (t := { s with stringpool := { s.stringpool with
          gcols := s.stringpool.gcols + 1
          free := s.stringpool.base } })
        unaligned valid fresh after.symm needed.symm mandatory s.isRts _ rfl rfl rfl rfl rfl rfl
      rw [expanded]
      cases error with
      | some error =>
        refine ⟨t, some error, rfl, ?_⟩
        rintro (none | critical)
        · cases none
        · exact absurd critical notCritical
      | none => exact ⟨_, _, rfl, fun _ => finish (result rfl)⟩
    next compacts =>
      rw [not_or] at compacts
      have roundedUp := ROUND_UP2_le space_asked
      have used := valid.used
      have limit := valid.limit
      refine ⟨_, _, rfl, fun _ => finish ?_⟩
      apply Collected.setCounters
      refine @collected_of_moved s _ live space_asked false valid rfl rfl rfl rfl ?_ ?_
      · exact .inl (Nat.le_refl _)
      · show s.stringpool.base + _ + space_asked ≤ s.stringpool.top
        omega

end Results

/-! ## Alignment -/

/-- A process with or without alignment, that is given memory at one address. -/
def StpEnv.granting (mstr_native_align : Bool) (addr : Nat) : StpEnv :=
  ⟨mstr_native_align, 4096, by decide, fun _ _ => some addr⟩

theorem granting_fresh (mstr_native_align : Bool) {pool : Spdesc} {addr : Nat}
    (above : pool.top + SIZEOF_CHAR_PTR ≤ addr) : (StpEnv.granting mstr_native_align addr).Fresh pool := by
  intro attempt size addr' granted
  obtain rfl : addr = addr' := Option.some.inj granted
  exact .inr above

/-- A pool in which a byte tells its own address. -/
def StpState.example (strings : List Mstr) (free top : Nat) : StpState where
  mem := fun a => UInt8.ofNat a
  mstrs := fun c => strings.getD c ⟨0, 0⟩
  stringpool := ⟨64, free, top, top, 0, 0, false⟩
  rts_stringpool := ⟨64, free, top, top, 0, 0, false⟩
  indr_stringpool := ⟨0, 0, 0, 0, 0, 0, false⟩
  rts := ⟨0, 1⟩
  indr := ⟨0, 1⟩
  stop_non_mandatory_expansion := false
  moves := []

/-- Strings that are closer to each other than aligned strings are. -/
def closeStrings : StpState := .example [⟨64, 3⟩, ⟨69, 2⟩, ⟨73, 3⟩] 128 1088

/-- Strings with substrings, whose lengths are taken for those of the strings before gaps. -/
def gappedStrings : StpState :=
  .example [⟨64, 8⟩, ⟨66, 3⟩, ⟨77, 8⟩, ⟨79, 3⟩, ⟨90, 8⟩] 104 128

theorem closeStrings_valid : closeStrings.Valid [0, 1, 2] :=
  ⟨by decide, by decide, by decide, by decide⟩

theorem gappedStrings_valid : gappedStrings.Valid [0, 1, 2, 3, 4] :=
  ⟨by decide, by decide, by decide, by decide⟩

/-- With alignment, a string that is moved up to an aligned address overwrites the next
one; and in a new pool there is less room than was asked for. -/
theorem stp_gcol_aligned_fails :
    (closeStrings.Valid [0, 1, 2] ∧ (StpEnv.granting true 4096).Fresh closeStrings.stringpool ∧
      ∃ s', stp_gcol (.granting true 4096) [0, 1, 2] 8 closeStrings = some (s', none) ∧
      s'.mem.read (s'.mstrs 2).addr (s'.mstrs 2).len ≠ closeStrings.mem.read 73 3) ∧
    (gappedStrings.Valid [0, 1, 2, 3, 4] ∧
      (StpEnv.granting true 3992).Fresh gappedStrings.stringpool ∧
      ∃ s', stp_gcol (.granting true 3992) [0, 1, 2, 3, 4] 64 gappedStrings = some (s', none) ∧
      s'.stringpool.top < s'.stringpool.free + 64) := by
  have overwritten : (stp_gcol (.granting true 4096) [0, 1, 2] 8 closeStrings).any (fun r =>
      r.2.isNone && decide (r.1.mem.read (r.1.mstrs 2).addr (r.1.mstrs 2).len ≠
        closeStrings.mem.read 73 3)) = true := by
    decide +kernel
  have short : (stp_gcol (.granting true 3992) [0, 1, 2, 3, 4] 64 gappedStrings).any (fun r =>
      r.2.isNone && decide (r.1.stringpool.top < r.1.stringpool.free + 64)) = true := by
    decide +kernel
  refine ⟨⟨closeStrings_valid, granting_fresh true (by decide), ?_⟩,
    gappedStrings_valid, granting_fresh true (by decide), ?_⟩
  · obtain ⟨⟨s', error⟩, done, holds⟩ := (Option.any_eq_true _ _).mp overwritten
    rw [Bool.and_eq_true, Option.isNone_iff_eq_none, decide_eq_true_eq] at holds
    obtain ⟨rfl, different⟩ := holds
    exact ⟨s', done, different⟩
  · obtain ⟨⟨s', error⟩, done, holds⟩ := (Option.any_eq_true _ _).mp short
    rw [Bool.and_eq_true, Option.isNone_iff_eq_none, decide_eq_true_eq] at holds
    obtain ⟨rfl, less⟩ := holds
    exact ⟨s', done, less⟩

/-- A collection of strings with gaps between them. -/
theorem stp_gcol_collects_gapped : gappedStrings.Valid [0, 1, 2, 3, 4] ∧
    ∃ s' error, stp_gcol (.granting false 3992) [0, 1, 2, 3, 4] 64 gappedStrings = some (s', error) ∧
      (error = none ∨ error = some .stpcrit → Collected gappedStrings [0, 1, 2, 3, 4] 64 s') := by
  refine ⟨gappedStrings_valid, stp_gcol_collects rfl gappedStrings_valid ?_⟩
  exact granting_fresh false (by decide)

end Ydb
