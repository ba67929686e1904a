import Mathlib.Data.Nat.Bitwise
import Ydb.Lib.ByteMemory
import Ydb.Lib.FirstIn

/-!
# Scans of the master map

`gtm_ffs` looks for the first set bit of a range of bits: in the rest of the byte
at the start of the range, in whole bytes, and in the first bits of the last byte.
`bmm_find_free` calls it for words of 32 bits, from a hint to the end of the map
and then from the start of the map to the hint.
-/

namespace Ydb.Bitmap

open Lib

abbrev block_id := Int

def NO_FREE_SPACE : block_id := -1
def BITS_PER_UCHAR : Nat := 8

/-- A bit of a byte, `byte & (1 << i)`. -/
def bitOf (byte : UInt8) (i : Nat) : Bool := decide (byte.toNat &&& 1 <<< i ≠ 0)

/-- The rest of the byte in which the range starts. -/
def firstByte (byte : UInt8) (offset size i j : Nat) : Option Nat :=
  if i < BITS_PER_UCHAR ∧ j < size then
    if bitOf byte i then some (offset + j) else firstByte byte offset size (i + 1) (j + 1)
  else none
termination_by BITS_PER_UCHAR - i

/-- The bits of a byte from `j` on. -/
def wholeByte (byte : UInt8) (i j : Nat) : Option Nat :=
  if j < BITS_PER_UCHAR then
    if bitOf byte j then some (i + j) else wholeByte byte i (j + 1)
  else none
termination_by BITS_PER_UCHAR - j

/-- The whole bytes; what is left is the place behind them. -/
def wholeBytes (mem : ByteMemory) (c i top : Nat) : Nat × Nat ⊕ Nat :=
  if i < top then
    if mem c ≠ 0 then
      match wholeByte (mem c) i 0 with
      | some answer => .inr answer
      | none => wholeBytes mem (c + 1) (i + BITS_PER_UCHAR) top
    else wholeBytes mem (c + 1) (i + BITS_PER_UCHAR) top
  else .inl (c, i)
termination_by top - i
decreasing_by
  all_goals
    simp only [BITS_PER_UCHAR]
    omega

/-- The first bits of the last byte. -/
def lastByte (byte : UInt8) (j i top : Nat) : Option Nat :=
  if i < top then if bitOf byte j then some i else lastByte byte (j + 1) (i + 1) top else none
termination_by top - i

/-- Find the first set bit of a bitmap. -/
def gtm_ffs (offset : Nat) (mem : ByteMemory) (addr size : Nat) : block_id :=
  let c := addr + offset / BITS_PER_UCHAR
  let i := offset % BITS_PER_UCHAR
  match if i ≠ 0 then firstByte (mem c) offset size i 0 else none with
  | some answer => answer
  | none =>
    let c := if i ≠ 0 then c + 1 else c
    let rounded := (offset + (BITS_PER_UCHAR - 1)) / BITS_PER_UCHAR * BITS_PER_UCHAR
    match wholeBytes mem c rounded ((size + offset) / BITS_PER_UCHAR * BITS_PER_UCHAR) with
    | .inr answer => answer
    | .inl (c, i) =>
      match lastByte (mem c) 0 i (size + offset) with
      | some answer => answer
      | none => NO_FREE_SPACE

def MAX_FFS_SIZE : Nat := 32

/-- One pass of the outer loop. -/
def findFreePass (mem : ByteMemory) (base_addr top start width : Nat) : block_id :=
  if 0 < width then
    let answer := gtm_ffs start mem base_addr width
    if NO_FREE_SPACE ≠ answer then answer
    else findFreePass mem base_addr top (start + width) (min (top - (start + width)) MAX_FFS_SIZE)
  else NO_FREE_SPACE
termination_by (top - start, width)
decreasing_by
  by_cases inside : start < top
  · apply Prod.Lex.left
    omega
  · have none : top - (start + width) = top - start := by omega
    have zero : top - start = 0 := by omega
    rw [none, zero]
    apply Prod.Lex.right
    simpa using ‹0 < width›

/-- The width of the first step of a pass, up to the next multiple of 32. -/
def firstWidth (start top : Nat) : Nat :=
  min top (start / MAX_FFS_SIZE * MAX_FFS_SIZE + MAX_FFS_SIZE) - start

/-- Find a local map with free blocks. -/
def bmm_find_free (hint : Nat) (mem : ByteMemory) (base_addr total_bits : Nat) : block_id :=
  let hint := if total_bits ≤ hint then 0 else hint
  if total_bits = 0 then NO_FREE_SPACE
  else
    let answer := findFreePass mem base_addr total_bits hint (firstWidth hint total_bits)
    if NO_FREE_SPACE ≠ answer then answer
    -- the second pass is a wrap to the beginning
    else if hint = 0 then NO_FREE_SPACE
    else findFreePass mem base_addr hint 0 (firstWidth 0 hint)

/-! ## Bits -/

/-- A bit of the map at an address. -/
def mapBit (mem : ByteMemory) (addr i : Nat) : Bool := (mem (addr + i / 8)).toNat.testBit (i % 8)

/-- An index as a `block_id`. -/
def foundBlock : Option Nat → block_id
  | some i => i
  | none => NO_FREE_SPACE

theorem foundBlock_ne (i : Nat) : NO_FREE_SPACE ≠ foundBlock (some i) := by
  intro same
  have nonnegative : 0 ≤ foundBlock (some i) := Int.natCast_nonneg i
  rw [← same] at nonnegative
  exact absurd nonnegative (by decide)

theorem bitOf_eq (byte : UInt8) (i : Nat) : bitOf byte i = byte.toNat.testBit i := by
  rw [bitOf, Nat.one_shiftLeft, Nat.and_two_pow]
  cases byte.toNat.testBit i
  · simp
  · simp

theorem firstByte_eq {mem : ByteMemory} {addr offset size : Nat} {i j : Nat}
    (place : offset + j = offset / 8 * 8 + i) (bound : i ≤ 8) :
    firstByte (mem (addr + offset / 8)) offset size i j =
      firstIn (mapBit mem addr) (offset + j) (min (8 - i) (size - j)) := by
  induction left : 8 - i generalizing i j with
  | zero =>
    rw [firstByte, if_neg (by simp only [BITS_PER_UCHAR]; omega), Nat.zero_min]
    rfl
  | succ n ih =>
    rw [firstByte]
    by_cases more : i < BITS_PER_UCHAR ∧ j < size
    · have inside : i < 8 := more.1
      have width : min (n + 1) (size - j) = min n (size - (j + 1)) + 1 := by omega
      have byte : (offset + j) / 8 = offset / 8 := by omega
      have bit : (offset + j) % 8 = i := by omega
      have here : mapBit mem addr (offset + j) = bitOf (mem (addr + offset / 8)) i := by
        rw [mapBit, byte, bit, bitOf_eq]
      rw [if_pos more, width, firstIn, here, ih (by omega) (by omega) (by omega)]
      rfl
    · have none : min (n + 1) (size - j) = 0 := by
        simp only [BITS_PER_UCHAR] at more
        omega
      rw [if_neg more, none]
      rfl

theorem wholeByte_eq {mem : ByteMemory} {addr i j : Nat} (aligned : 8 ∣ i) (bound : j ≤ 8) :
    wholeByte (mem (addr + i / 8)) i j = firstIn (mapBit mem addr) (i + j) (8 - j) := by
  induction left : 8 - j generalizing j with
  | zero =>
    rw [wholeByte, if_neg (by simp only [BITS_PER_UCHAR]; omega)]
    rfl
  | succ n ih =>
    have inside : j < BITS_PER_UCHAR := by
      simp only [BITS_PER_UCHAR]
      omega
    have byte : (i + j) / 8 = i / 8 := by omega
    have bit : (i + j) % 8 = j := by omega
    have here : mapBit mem addr (i + j) = bitOf (mem (addr + i / 8)) j := by
      rw [mapBit, byte, bit, bitOf_eq]
    rw [wholeByte, if_pos inside, firstIn, here, ih (by omega) (by omega)]
    rfl

theorem mapBit_of_zero {mem : ByteMemory} {addr i : Nat} (zero : mem (addr + i / 8) = 0) :
    mapBit mem addr i = false := by
  rw [mapBit, zero]
  exact Nat.zero_testBit _

/-- The whole bytes either have the first set bit or none. -/
theorem wholeBytes_spec {mem : ByteMemory} {addr i top : Nat} (aligned : 8 ∣ i) (topAligned : 8 ∣ top) :
    wholeBytes mem (addr + i / 8) i top =
      match firstIn (mapBit mem addr) i (top - i) with
      | some answer => .inr answer
      | none => .inl (addr + max i top / 8, max i top) := by
  induction left : top - i using Nat.strong_induction_on generalizing i with
  | _ n ih =>
    rw [wholeBytes]
    by_cases more : i < top
    · have eight : n = 8 + (top - (i + 8)) := by omega
      have next : addr + i / 8 + 1 = addr + (i + 8) / 8 := by omega
      have rest := ih (top - (i + 8)) (by omega) (i := i + 8) (by omega) rfl
      have highest : max i top = max (i + 8) top := by omega
      have whole := @wholeByte_eq mem addr _ _ aligned (Nat.zero_le 8)
      rw [Nat.add_zero, Nat.sub_zero] at whole
      rw [if_pos more, eight, firstIn_append, BITS_PER_UCHAR, next, rest, highest]
      by_cases zero : mem (addr + i / 8) = 0
      · have clear : firstIn (mapBit mem addr) i 8 = none := by
          apply firstIn_eq_none_iff.mpr
          intro k after below
          apply mapBit_of_zero
          have byte : k / 8 = i / 8 := by omega
          rw [byte, zero]
        rw [if_neg (not_not.mpr zero), clear, Option.none_or]
      · rw [if_pos zero, whole]
        cases firstIn (mapBit mem addr) i 8 with
        | none => rw [Option.none_or]
        | some answer => rw [Option.some_or]
    · have none : n = 0 := by omega
      have highest : max i top = i := by omega
      rw [if_neg more, none, highest]
      rfl

theorem lastByte_eq {mem : ByteMemory} {addr i j top : Nat} (place : i = i / 8 * 8 + j)
    (short : top ≤ i / 8 * 8 + 8) :
    lastByte (mem (addr + i / 8)) j i top = firstIn (mapBit mem addr) i (top - i) := by
  induction left : top - i generalizing i j with
  | zero =>
    rw [lastByte, if_neg (by omega)]
    rfl
  | succ n ih =>
    have bit : i % 8 = j := by omega
    have here : mapBit mem addr i = bitOf (mem (addr + i / 8)) j := by rw [mapBit, bit, bitOf_eq]
    rw [lastByte, if_pos (by omega), firstIn, here]
    by_cases last : n = 0
    · have behind : lastByte (mem (addr + i / 8)) (j + 1) (i + 1) top = none := by
        rw [lastByte, if_neg (by omega)]
      rw [last, behind]
      rfl
    · have byte : (i + 1) / 8 = i / 8 := by omega
      have rest := ih (i := i + 1) (j := j + 1) (by omega) (by omega) (by omega)
      rw [byte] at rest
      rw [rest]

/-- Where the whole bytes start, and what lies before them in the range. -/
theorem firstPart_eq {mem : ByteMemory} {addr offset size : Nat} :
    (if offset % 8 ≠ 0 then firstByte (mem (addr + offset / 8)) offset size (offset % 8) 0 else none) =
      firstIn (mapBit mem addr) offset (min ((offset + 7) / 8 * 8) (size + offset) - offset) := by
  by_cases inside : offset % 8 ≠ 0
  · have start := @firstByte_eq mem addr _ size _ _
      (by omega : offset + 0 = offset / 8 * 8 + offset % 8) (by omega)
    have width : min ((offset + 7) / 8 * 8) (size + offset) - offset =
        min (8 - offset % 8) (size - 0) := by omega
    rw [if_pos inside, width]
    exact start
  · have none : min ((offset + 7) / 8 * 8) (size + offset) - offset = 0 := by omega
    rw [if_neg inside, none]
    rfl

/-- The answer is the first set bit of the range. -/
theorem gtm_ffs_eq (offset : Nat) (mem : ByteMemory) (addr size : Nat) :
    gtm_ffs offset mem addr size = foundBlock (firstIn (mapBit mem addr) offset size) := by
  have eight : BITS_PER_UCHAR = 8 := rfl
  have next : (if offset % 8 ≠ 0 then addr + offset / 8 + 1 else addr + offset / 8) =
      addr + (offset + 7) / 8 * 8 / 8 := by
    split_ifs <;> omega
  unfold gtm_ffs
  dsimp only
  rw [eight, firstPart_eq]
  generalize isRounded : (offset + (8 - 1)) / 8 * 8 = rounded
  have isRounded' : (offset + 7) / 8 * 8 = rounded := isRounded
  generalize isTop : (size + offset) / 8 * 8 = top
  rw [isRounded'] at next
  -- the three parts of the range
  have parts : firstIn (mapBit mem addr) offset size =
      ((firstIn (mapBit mem addr) offset (min rounded (size + offset) - offset)).or
        (firstIn (mapBit mem addr) rounded (top - rounded))).or
        (firstIn (mapBit mem addr) (max rounded top) (size + offset - max rounded top)) := by
    have whole : size = min rounded (size + offset) - offset +
        ((top - rounded) + (size + offset - max rounded top)) := by omega
    by_cases short : size + offset ≤ rounded
    · have noBytes : top - rounded = 0 := by omega
      have noBits : size + offset - max rounded top = 0 := by omega
      have first : min rounded (size + offset) - offset = size := by omega
      rw [noBytes, noBits, first, firstIn, firstIn, Option.or_none, Option.or_none]
    · have second : offset + (min rounded (size + offset) - offset) = rounded := by omega
      have third : rounded + (top - rounded) = max rounded top := by omega
      conv_lhs => rw [whole, firstIn_append, firstIn_append, second, third]
      rw [Option.or_assoc]
  rw [parts]
  cases firstIn (mapBit mem addr) offset (min rounded (size + offset) - offset) with
  | some answer => rfl
  | none =>
    dsimp only
    rw [next, wholeBytes_spec (by omega) (by omega), Option.none_or]
    cases firstIn (mapBit mem addr) rounded (top - rounded) with
    | some answer => rfl
    | none =>
      dsimp only
      rw [lastByte_eq (by omega) (by omega), Option.none_or]
      cases firstIn (mapBit mem addr) (max rounded top) (size + offset - max rounded top) with
      | some answer => rfl
      | none => rfl

/-! ## The master map -/

/-- One pass finds the first free bit behind its start. -/
theorem findFreePass_eq (mem : ByteMemory) (base_addr top start width : Nat)
    (fits : start + width ≤ top) (goesOn : width = 0 → start = top) :
    findFreePass mem base_addr top start width =
      foundBlock (firstIn (mapBit mem base_addr) start (top - start)) := by
  induction left : top - start using Nat.strong_induction_on generalizing start width with
  | _ n ih =>
    rw [findFreePass]
    by_cases more : 0 < width
    · have rest : n = width + (top - (start + width)) := by omega
      rw [if_pos more, gtm_ffs_eq, rest, firstIn_append]
      dsimp only
      cases firstIn (mapBit mem base_addr) start width with
      | some answer => rw [if_pos (foundBlock_ne answer), Option.some_or]
      | none =>
        have next := ih (top - (start + width)) (by omega) (start + width)
          (min (top - (start + width)) MAX_FFS_SIZE) (by omega)
          (by simp only [MAX_FFS_SIZE]; omega) rfl
        rw [Option.none_or, ← next]
        exact if_neg (not_not.mpr rfl)
    · have done : n = 0 := by omega
      rw [if_neg more, done]
      rfl

theorem firstWidth_fits {start top : Nat} (inside : start < top) :
    start + firstWidth start top ≤ top ∧ (firstWidth start top = 0 → start = top) := by
  simp only [firstWidth, MAX_FFS_SIZE]
  omega

/-- The answer is the first set bit at or after the hint, in the order that goes on from the end of
the map to its start; a hint behind the map counts as none. -/
theorem bmm_find_free_eq (hint : Nat) (mem : ByteMemory) (base_addr total_bits : Nat) :
    bmm_find_free hint mem base_addr total_bits =
      foundBlock ((firstIn (mapBit mem base_addr) (if total_bits ≤ hint then 0 else hint)
        (total_bits - if total_bits ≤ hint then 0 else hint)).or
          (firstIn (mapBit mem base_addr) 0 (if total_bits ≤ hint then 0 else hint))) := by
  unfold bmm_find_free
  dsimp only
  by_cases none : total_bits = 0
  · subst none
    rfl
  · generalize isStart : (if total_bits ≤ hint then 0 else hint) = start
    have inside : start < total_bits := by
      rw [← isStart]
      split_ifs <;> omega
    obtain ⟨fits, goesOn⟩ := firstWidth_fits inside
    rw [if_neg none, findFreePass_eq _ _ _ _ _ fits goesOn]
    cases firstIn (mapBit mem base_addr) start (total_bits - start) with
    | some answer => rw [if_pos (foundBlock_ne answer), Option.some_or]
    | none =>
      have absent : ¬ NO_FREE_SPACE ≠ foundBlock Option.none := not_not.mpr rfl
      rw [if_neg absent, Option.none_or]
      by_cases first : start = 0
      · rw [if_pos first, first]
        rfl
      · obtain ⟨fits', goesOn'⟩ := firstWidth_fits (Nat.pos_of_ne_zero first)
        rw [if_neg first, findFreePass_eq _ _ _ _ _ fits' goesOn', Nat.sub_zero]

end Ydb.Bitmap
