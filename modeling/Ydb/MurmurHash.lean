import Ydb.Lib.BlockAbsorption
import Ydb.Lib.MachineWords

/-!
# Progressive hashing

The 128-bit MurmurHash3 of a string, computed at once, and computed from pieces of the
string of any lengths. Between two pieces the bytes that do not fill a block of sixteen
are carried in two words. All words are little-endian.
-/

namespace Ydb

open Lib

/-- Two words, as the hash returns them. -/
structure ydb_uint16 where
  one : BitVec 64
  two : BitVec 64
deriving DecidableEq

def C1 : BitVec 64 := 0x87c37b91114253d5

def C2 : BitVec 64 := 0x4cf5ad432745937f

def M1 : BitVec 64 := 0x52dce729

def M2 : BitVec 64 := 0x38495ab5

/-- Rotate to the left. -/
def ROTL64 (x : BitVec 64) (y : Nat) : BitVec 64 := (x <<< y) ||| (x >>> (64 - y))

/-- The final mix. -/
def fmix64 (k : BitVec 64) : BitVec 64 :=
  let k := k ^^^ (k >>> 33)
  let k := k * 0xff51afd7ed558ccd
  let k := k ^^^ (k >>> 33)
  let k := k * 0xc4ceb9fe1a85ec53
  k ^^^ (k >>> 33)

/-- A byte shifted to its place in a word. -/
def shiftedByte (b : UInt8) (place : Nat) : BitVec 64 := b.toBitVec.setWidth 64 <<< (place * 8)

/-! ## At once -/

/-- The first word of a block, mixed. -/
def murmurFirst (k1 : BitVec 64) : BitVec 64 := ROTL64 (k1 * C1) 31 * C2

/-- The second word of a block, mixed. -/
def murmurSecond (k2 : BitVec 64) : BitVec 64 := ROTL64 (k2 * C2) 33 * C1

/-- One turn of the loop of `MurmurHash3_x64_128`. -/
def murmurTurn (h : ydb_uint16) (k1 k2 : BitVec 64) : ydb_uint16 :=
  let h1 := h.one ^^^ murmurFirst k1
  let h1 := (ROTL64 h1 27 + h.two) * 5 + M1
  let h2 := h.two ^^^ murmurSecond k2
  let h2 := (ROTL64 h2 31 + h1) * 5 + M2
  ⟨h1, h2⟩

/-- The cases of the switch that fall through, from the `n`-th byte of a word down. -/
def tailWord (tail : List UInt8) (base : Nat) : Nat → BitVec 64 → BitVec 64
  | 0, k => k
  | n + 1, k => tailWord tail base n (k ^^^ shiftedByte (tail.getD (base + n) 0) n)

/-- The hash of a whole key. -/
def MurmurHash3_x64_128 (key : List UInt8) (seed : BitVec 32) : ydb_uint16 :=
  let len := key.length
  let nblocks := len / 16
  let blocks := fun i => word ((key.drop (8 * i)).take 8)
  let h := (List.range nblocks).foldl
    (fun h i => murmurTurn h (blocks (i * 2 + 0)) (blocks (i * 2 + 1)))
    ⟨seed.setWidth 64, seed.setWidth 64⟩
  let tail := key.drop (nblocks * 16)
  let rest := len % 16
  let h2 := if 9 ≤ rest then h.two ^^^ murmurSecond (tailWord tail 8 (rest - 8) 0) else h.two
  let h1 := if 1 ≤ rest then h.one ^^^ murmurFirst (tailWord tail 0 (min rest 8) 0) else h.one
  let size := BitVec.ofInt 64 (int4Value len)
  let h1 := h1 ^^^ size
  let h2 := h2 ^^^ size
  let h1 := h1 + h2
  let h2 := h2 + h1
  let h1 := fmix64 h1
  let h2 := fmix64 h2
  let h1 := h1 + h2
  let h2 := h2 + h1
  ⟨h1, h2⟩

/-! ## Piece by piece -/

/-- The state between pieces. -/
structure hash128_state_t where
  h : ydb_uint16
  c : ydb_uint16
  carry_bytes : Nat
deriving DecidableEq

/-- The state before the first piece. -/
def HASH128_STATE_INIT (seed : BitVec 64) : hash128_state_t :=
  ⟨⟨seed, seed⟩, ⟨0, 0⟩, 0⟩

/-- The first loop of `ADD_BYTES`: the bytes, the last one first, that belong to the upper word. -/
def addUpper : List UInt8 → Nat → BitVec 64 → List UInt8 × Nat × BitVec 64
  | [], ab_offset, c2 => ([], ab_offset, c2)
  | b :: bytes, ab_offset, c2 =>
    if ab_offset > 8 then addUpper bytes (ab_offset - 1) (c2 ||| shiftedByte b (ab_offset - 9))
    else (b :: bytes, ab_offset, c2)

/-- The second loop: the bytes that belong to the lower word. -/
def addLower : List UInt8 → Nat → BitVec 64 → BitVec 64
  | [], _, c1 => c1
  | b :: bytes, ab_offset, c1 => addLower bytes (ab_offset - 1) (c1 ||| shiftedByte b (ab_offset - 1))

/-- Keep bytes until the block is full. -/
def ADD_BYTES (state : hash128_state_t) (key : List UInt8) (count : Nat) : hash128_state_t :=
  let (rest, ab_offset, c2) := addUpper (key.take count).reverse (state.carry_bytes + count) state.c.two
  let c1 := addLower rest ab_offset state.c.one
  { state with c := ⟨c1, c2⟩, carry_bytes := state.carry_bytes + count }

/-- The next block, and the state with the bytes that are carried on. -/
def GET_BLOCK (state : hash128_state_t) (key : List UInt8) : BitVec 64 × BitVec 64 × hash128_state_t :=
  let carry := state.carry_bytes
  let m1 := word (key.take 8)
  let m2 := word ((key.drop 8).take 8)
  if carry = 0 then (m1, m2, state)
  else if carry = 8 then (state.c.one, m1, { state with c := ⟨m2, state.c.two⟩ })
  else if carry < 8 then
    (state.c.one ||| (m1 <<< (carry * 8)), (m1 >>> ((8 - carry) * 8)) ||| (m2 <<< (carry * 8)),
      { state with c := ⟨m2 >>> ((8 - carry) * 8), state.c.two⟩ })
  else
    (state.c.one, state.c.two ||| (m1 <<< ((carry - 8) * 8)),
      { state with c := ⟨(m1 >>> ((16 - carry) * 8)) ||| (m2 <<< ((carry - 8) * 8)),
                         m2 >>> ((16 - carry) * 8)⟩ })

/-- Mix the first word into the hash. -/
def INTEGRATE_K1 (k1 h1 : BitVec 64) : BitVec 64 :=
  let k1 := k1 * C1
  let k1 := ROTL64 k1 31
  let k1 := k1 * C2
  h1 ^^^ k1

/-- Mix the second word into the hash. -/
def INTEGRATE_K2 (k2 h2 : BitVec 64) : BitVec 64 :=
  let k2 := k2 * C2
  let k2 := ROTL64 k2 33
  let k2 := k2 * C1
  h2 ^^^ k2

/-- Mix a block into the hash. -/
def PROCESS_BLOCK (k1 k2 : BitVec 64) (h : ydb_uint16) : ydb_uint16 :=
  let h1 := INTEGRATE_K1 k1 h.one
  let h1 := ROTL64 h1 27
  let h1 := h1 + h.two
  let h1 := h1 * 5 + M1
  let h2 := INTEGRATE_K2 k2 h.two
  let h2 := ROTL64 h2 31
  let h2 := h2 + h1
  let h2 := h2 * 5 + M2
  ⟨h1, h2⟩

/-- Hash the full blocks and keep the rest. -/
def PROCESS_BYTES (state : hash128_state_t) (key : List UInt8) (len : Nat) : hash128_state_t :=
  if state.carry_bytes + len ≥ 16 then
    let pb_carry_fill := 16 - state.carry_bytes
    let state := ADD_BYTES state key pb_carry_fill
    let h := PROCESS_BLOCK state.c.one state.c.two state.h
    ADD_BYTES ⟨h, ⟨0, 0⟩, 0⟩ (key.drop pb_carry_fill) (len - pb_carry_fill)
  else ADD_BYTES state key len

/-- The loop over complete blocks of the piece, and what is left of it. -/
def ingestBlocks (state : hash128_state_t) (key : List UInt8) : hash128_state_t × List UInt8 :=
  if 16 ≤ key.length then
    let (k1, k2, state) := GET_BLOCK state key
    ingestBlocks { state with h := PROCESS_BLOCK k1 k2 state.h } (key.drop 16)
  else (state, key)
termination_by key.length
decreasing_by
  rw [List.length_drop]
  omega

/-- Ingest a piece. Where words must be aligned, the bytes before the first aligned address come
first. -/
def ydb_mmrhash_128_ingest (aligned : Bool) (state : hash128_state_t) (address : Nat)
    (key : List UInt8) : hash128_state_t :=
  if key.length = 0 then state
  else
    let i := if aligned then min ((8 - address % 8) % 8) key.length else 0
    let (state, key) := if i > 0 then (PROCESS_BYTES state key i, key.drop i) else (state, key)
    let (state, key) := ingestBlocks state key
    if key.length > 0 then PROCESS_BYTES state key key.length else state

/-- The hash of all pieces. -/
def ydb_mmrhash_128_result (state : hash128_state_t) (total_len : BitVec 32) : ydb_uint16 :=
  let k1 := state.c.one
  let k2 := state.c.two
  let h1 := state.h.one
  let h2 := state.h.two
  let h2 := if state.carry_bytes ≠ 0 then
    if state.carry_bytes > 8 then INTEGRATE_K2 k2 h2 else h2 else h2
  let h1 := if state.carry_bytes ≠ 0 then INTEGRATE_K1 k1 h1 else h1
  let h1 := h1 ^^^ total_len.setWidth 64
  let h2 := h2 ^^^ total_len.setWidth 64
  let h1 := h1 + h2
  let h2 := h2 + h1
  let h1 := fmix64 h1
  let h2 := fmix64 h2
  let h1 := h1 + h2
  let h2 := h2 + h1
  ⟨h1, h2⟩

end Ydb
