import Ydb.Lib.ByteMemory
import Mathlib.Data.List.Sort

/-!
# The string pool

Strings are built at the free end of the string pool, and substrings share the
bytes of the strings they are taken from. When the pool is full, the strings that
are still in use are moved together, in the pool or to a larger one.

The strings in use are given by the places of their descriptors. Moves are
recorded together with the strings that were still to be moved.
-/

namespace Ydb

open Lib

/-- A string: where it is and how long. -/
structure Mstr where
  addr : Nat
  len : Nat
deriving DecidableEq, Repr

/-- The bounds of a pool. -/
structure Spdesc where
  base : Nat
  free : Nat
  top : Nat
  invokestpgcollevel : Nat
  gcols : Nat
  strpllim : Int
  strpllimwarned : Bool
deriving DecidableEq, Repr

/-- What is remembered between collections of a pool. -/
structure StpCounters where
  low_reclaim_passes : Nat
  incr_factor : Nat
deriving DecidableEq, Repr

/-- A move of a block, and the strings that were not yet moved then. -/
structure StpMove where
  target : Nat
  source : Nat
  blklen : Nat
  pending : List Mstr

/-- The state of the string pool. -/
structure StpState where
  mem : ByteMemory
  mstrs : Nat → Mstr
  stringpool : Spdesc
  rts_stringpool : Spdesc
  indr_stringpool : Spdesc
  rts : StpCounters
  indr : StpCounters
  stop_non_mandatory_expansion : Bool
  moves : List StpMove

/-- The settings of the process, and the answers of the system to requests for memory. -/
structure StpEnv where
  mstr_native_align : Bool
  os_page_size : Nat
  os_page_size_pos : 0 < os_page_size
  malloc : Nat → Nat → Option Nat

/-- Why the pool is given up. -/
inductive StpError where
  | assertpro
  | memory
  | stpoflow
  | stpexpfail
  | stpcrit
deriving DecidableEq, Repr

def NATIVE_WSIZE : Nat := 8

/-- The next multiple. -/
def ROUND_UP2 (value modulus : Nat) : Nat := (value + (modulus - 1)) / modulus * modulus

/-- How far the next multiple is. -/
def PADLEN (value bndry : Nat) : Nat := ROUND_UP2 value bndry - value

def STP_NUM_INCRS : Nat := 4

def STP_MAXLOWRECLAIM_PASSES : Nat := 2

def STP_SPACE_USED_MULTIPLIER : Nat := 3

def STP_GCOL_TRIGGER_FLOOR : Nat := 150000

def SIZEOF_CHAR_PTR : Nat := 8

/-- The space below which a collection has reclaimed little. -/
def STP_LOWRECLAIM_LEVEL (x : Nat) : Nat := x / 4 + x / 8 - x / 16

/-! ## Moving -/

/-- Find the end of a run of strings without gaps between them, other than padding, and
point their descriptors at where they will be. -/
def PROCESS_CONTIGUOUS_BLOCK (mstr_native_align : Bool) (delta : Int) :
    Nat → Nat → List Nat → (Nat → Mstr) → Nat × List Nat × (Nat → Mstr)
  | endaddr, _, [], mstrs => (endaddr, [], mstrs)
  | endaddr, padlen, c :: cstr, mstrs =>
    let s := mstrs c
    if endaddr < s.addr ∧ s.addr ≠ endaddr + padlen then (endaddr, c :: cstr, mstrs)
    else
      PROCESS_CONTIGUOUS_BLOCK mstr_native_align delta (max endaddr (s.addr + s.len))
        (if mstr_native_align then PADLEN s.len NATIVE_WSIZE else 0) cstr
        (Function.update mstrs c { s with addr := ((s.addr : Int) - delta).toNat })

/-- The part of the state that moving changes. -/
structure StpMoving where
  mem : ByteMemory
  mstrs : Nat → Mstr
  free : Nat
  moves : List StpMove

/-- Move the runs of strings one after the other to the free end of the pool. -/
def moveBlocks (mstr_native_align copies : Bool) : Nat → List Nat → StpMoving → StpMoving
  | 0, _, s => s
  | _ + 1, [], s => s
  | rounds + 1, c :: cstr, s =>
    let free := if mstr_native_align then ROUND_UP2 s.free NATIVE_WSIZE else s.free
    let begaddr := (s.mstrs c).addr
    let delta : Int := begaddr - free
    let (endaddr, rest, mstrs) :=
      PROCESS_CONTIGUOUS_BLOCK mstr_native_align delta begaddr 0 (c :: cstr) s.mstrs
    let blklen := endaddr - begaddr
    moveBlocks mstr_native_align copies rounds rest {
      mem := if copies || delta != 0 then s.mem.memmove free begaddr blklen else s.mem
      mstrs := mstrs
      free := free + blklen
      moves := ⟨free, begaddr, blklen, rest.map s.mstrs⟩ :: s.moves }

/-- Copy the strings to another pool. -/
def COPY2STPOOL (mstr_native_align : Bool) (cstr : List Nat) : StpMoving → StpMoving :=
  moveBlocks mstr_native_align true cstr.length cstr

/-- Move the strings together. Runs that are in place stay there. -/
def MOVE_WITHIN_STPOOL (mstr_native_align : Bool) (cstr : List Nat) : StpMoving → StpMoving :=
  moveBlocks mstr_native_align false cstr.length cstr

/-! ## The space -/

/-- The descriptor is of a string in the pool. -/
def MSTR_STPG_ADD (s : StpState) (c : Nat) : Bool :=
  (s.mstrs c).len != 0 && decide (s.stringpool.base ≤ (s.mstrs c).addr) &&
    decide ((s.mstrs c).addr < s.stringpool.free)

/-- The strings are sorted by their addresses. -/
def stpg_sort (mstrs : Nat → Mstr) (array : List Nat) : List Nat :=
  array.insertionSort fun a b => (mstrs a).addr ≤ (mstrs b).addr

/-- The descriptors of strings in the pool, in order of their addresses. -/
def StpState.array (s : StpState) (live : List Nat) : List Nat :=
  stpg_sort s.mstrs (live.filter (MSTR_STPG_ADD s))

/-- The space that strings need. -/
def spaceLoop (mstr_native_align : Bool) (mstrs : Nat → Mstr) : List Nat → Nat → Nat → Nat
  | [], _, totspace => totspace
  | c :: cstr, straddr, totspace =>
    let tmpaddr := (mstrs c).addr
    let tmplen := (mstrs c).len
    if straddr < tmpaddr + tmplen then
      let tmplen2 := if straddr ≤ tmpaddr then tmplen else tmpaddr + tmplen - straddr
      let totspace := totspace + tmplen2
      let totspace :=
        if mstr_native_align then totspace + PADLEN totspace NATIVE_WSIZE else totspace
      spaceLoop mstr_native_align mstrs cstr (tmpaddr + tmplen) totspace
    else spaceLoop mstr_native_align mstrs cstr straddr totspace

/-- The space that the strings need. -/
def totalSpace (mstr_native_align : Bool) (mstrs : Nat → Mstr) : List Nat → Nat
  | [] => 0
  | c :: cstr => spaceLoop mstr_native_align mstrs (c :: cstr) (mstrs c).addr 0

/-! ## Expansion -/

/-- A pool of a given size in new memory. Its top is below a page that must not be used. -/
def stp_init (env : StpEnv) (pool : Spdesc) (addr size : Nat) : Spdesc :=
  let limit := addr + size + SIZEOF_CHAR_PTR + 2 * env.os_page_size
  let top := limit - limit % env.os_page_size - env.os_page_size - SIZEOF_CHAR_PTR
  { pool with
    base := addr
    free := addr
    top := top
    invokestpgcollevel := top
    gcols := 0 }

/-- What an expansion takes. -/
structure Expansion where
  pool : Spdesc
  incr_factor : Nat
  stop_non_mandatory_expansion : Bool
  error : Option StpError

/-- Ask for a larger pool, for less and less of what was wanted, down to what is needed. -/
def expandLoop (env : StpEnv) (pool : Spdesc) (space_needed : Int)
    (non_mandatory_expansion : Bool) : Nat → Nat → Int → Nat → Bool → Option Expansion
  | 0, _, _, _, _ => none
  | rounds + 1, attempt, stp_incr, incr_factor, stop =>
    let stp_incr := if stp_incr < space_needed then space_needed else stp_incr
    let retry_if_expansion_fails : Bool := space_needed < stp_incr
    let size := stp_incr + ((pool.top - pool.base : Nat) : Int)
    if non_mandatory_expansion && stp_incr == 0 then some ⟨pool, incr_factor, stop, none⟩
    else if pool.strpllimwarned && decide (pool.strpllim < size) then
      some ⟨pool, incr_factor, stop, some .stpoflow⟩
    else
      match env.malloc attempt (size.toNat + SIZEOF_CHAR_PTR + 2 * env.os_page_size) with
      | some addr => some ⟨stp_init env pool addr size.toNat, incr_factor, stop, none⟩
      | none =>
        if !retry_if_expansion_fails then some ⟨pool, incr_factor, stop, some .memory⟩
        else
          let stop := stop || non_mandatory_expansion
          if 1 < incr_factor then
            expandLoop env pool space_needed non_mandatory_expansion rounds (attempt + 1)
              ((pool.top - pool.base) * (incr_factor - 1) / STP_NUM_INCRS : Nat) (incr_factor - 1)
              stop
          else
            expandLoop env pool space_needed non_mandatory_expansion rounds (attempt + 1)
              (if space_needed < stp_incr then stp_incr / 2 else stp_incr) incr_factor stop

/-- Enough rounds for `expandLoop`. -/
def expandRounds (pool : Spdesc) (incr_factor : Nat) : Nat := incr_factor + (pool.top - pool.base) + 2

/-! ## Collection -/

/-- Which of the two pools is collected. -/
def StpState.isRts (s : StpState) : Bool := s.stringpool.base == s.rts_stringpool.base

/-- The counters of the pool in use. -/
def StpState.counters (s : StpState) : StpCounters := if s.isRts then s.rts else s.indr

/-- Assign the counters of a pool. -/
def StpState.setCounters (s : StpState) (isRts : Bool) (counters : StpCounters) : StpState :=
  if isRts then { s with rts := counters } else { s with indr := counters }

/-- What the collector moves. -/
def StpState.moving (s : StpState) : StpMoving := ⟨s.mem, s.mstrs, s.stringpool.free, s.moves⟩

/-- After the collector has moved strings. -/
def StpState.moved (s : StpState) (m : StpMoving) : StpState :=
  { s with
    mem := m.mem
    mstrs := m.mstrs
    stringpool := { s.stringpool with free := m.free }
    moves := m.moves }

/-- Keep the descriptor of the pool that was expanded up to date. -/
def StpState.keepPool (s : StpState) (isRts : Bool) : StpState :=
  if isRts then { s with rts_stringpool := s.stringpool }
  else { s with indr_stringpool := s.stringpool }

/-- The end of a collection: when to collect again, and whether the pool is too large. -/
def finishCollection (s : StpState) (space_asked : Nat) : StpState × Option StpError :=
  let pool := s.stringpool
  let level := STP_SPACE_USED_MULTIPLIER * (space_asked + pool.free - pool.base) + pool.base
  let level := if level - pool.base < STP_GCOL_TRIGGER_FLOOR ∨ pool.top < level then pool.top else level
  let pool := { pool with invokestpgcollevel := level }
  if 0 < pool.strpllim ∧ pool.strpllimwarned = false ∧
      pool.strpllim < ((pool.top - pool.base : Nat) : Int) then
    ({ s with stringpool := { pool with strpllimwarned := true } }, some .stpcrit)
  else ({ s with stringpool := pool }, none)

/-- Expand the pool, or go on with what there is. -/
def expandPool (env : StpEnv) (array : List Nat) (space_after_compact space_needed : Int)
    (non_mandatory_expansion isRts : Bool) (old_free : Nat) (counters : StpCounters) (s : StpState) :
    Option (StpState × Option StpError) := do
  let strpool_base := s.stringpool.base
  let stp_incr := (s.stringpool.top - s.stringpool.base) * counters.incr_factor / STP_NUM_INCRS
  let expansion ← expandLoop env s.stringpool space_needed non_mandatory_expansion
    (expandRounds s.stringpool counters.incr_factor) 0 stp_incr counters.incr_factor
    s.stop_non_mandatory_expansion
  let s := { s with
    stringpool := expansion.pool
    stop_non_mandatory_expansion := expansion.stop_non_mandatory_expansion }
  let incr_factor := expansion.incr_factor
  match expansion.error with
  | some error => some (s.setCounters isRts { counters with incr_factor := incr_factor }, some error)
  | none =>
    if strpool_base ≠ s.stringpool.base then
      let s := s.moved (COPY2STPOOL env.mstr_native_align array s.moving)
      let s := s.keepPool isRts
      let incr_factor := if incr_factor < STP_NUM_INCRS then incr_factor + 1 else incr_factor
      some (s.setCounters isRts ⟨0, incr_factor⟩, none)
    else if space_after_compact < space_needed then
      let s := { s with stringpool := { s.stringpool with free := old_free } }
      some (s.setCounters isRts { counters with incr_factor := incr_factor }, some .stpexpfail)
    else
      let s := s.moved (MOVE_WITHIN_STPOOL env.mstr_native_align array s.moving)
      some (s.setCounters isRts ⟨0, incr_factor⟩, none)

/-- Collect the garbage, so that there is room for `space_asked` bytes. -/
def stp_gcol (env : StpEnv) (live : List Nat) (space_asked : Nat) (s : StpState) :
    Option (StpState × Option StpError) :=
  let pool := { s.stringpool with gcols := s.stringpool.gcols + 1 }
  if pool.base ≠ s.rts_stringpool.base ∧ pool.base ≠ s.indr_stringpool.base then
    some ({ s with stringpool := pool }, some .assertpro)
  else
    let counters := s.counters
    let array := s.array live
    let t := { s with stringpool := { pool with free := pool.base } }
    let size : Nat := pool.top - pool.base
    let totspace := totalSpace env.mstr_native_align s.mstrs array
    let space_after_compact : Int := (size : Int) - totspace
    let space_needed : Int := (ROUND_UP2 space_asked NATIVE_WSIZE : Nat) - space_after_compact
    let low_reclaim_passes :=
      if space_after_compact < STP_LOWRECLAIM_LEVEL size then counters.low_reclaim_passes + 1 else 0
    let non_mandatory_expansion := !decide (0 < space_needed) && !s.stop_non_mandatory_expansion &&
      decide (STP_MAXLOWRECLAIM_PASSES ≤ low_reclaim_passes)
    let counters := { counters with low_reclaim_passes := low_reclaim_passes }
    if 0 < space_needed ∨ non_mandatory_expansion then
      match expandPool env array space_after_compact space_needed non_mandatory_expansion s.isRts
        s.stringpool.free counters t with
      | none => none
      | some (t, some error) => some (t, some error)
      | some (t, none) => some (finishCollection t space_asked)
    else
      let counters := { counters with
        incr_factor := if 1 < counters.incr_factor then counters.incr_factor - 1
          else counters.incr_factor }
      let t := t.moved (MOVE_WITHIN_STPOOL env.mstr_native_align array t.moving)
      some (finishCollection (t.setCounters s.isRts counters) space_asked)

end Ydb
