import Ydb.BitmapScans

/-!
# Free blocks of local maps

A local map has two bits for each block: busy, free, recycled or invalid. Its
scans work on bytes of four blocks, of which the last may belong to the map in
part. `bm_find_blk` looks for the first block that is not busy from a hint on,
`bml_find_free` for any, and `is_free_blks_ctr_ok` counts all of them in the maps
that are not full, to check the counter in the file header.
-/

namespace Ydb.Bitmap

open Lib

def BML_BITS_PER_BLK : Nat := 2
def THREE_BLKS_BITMASK : Nat := 0x3F
def TWO_BLKS_BITMASK : Nat := 0x0F
def ONE_BLK_BITMASK : Nat := 0x03
def BLK_BUSY : Nat := 0
def BLK_MAPINVALID : Nat := 2
def BLK_RECYCLED : Nat := 3

/-- The status of a block in the map. -/
def GET_BM_STATUS (mem : ByteMemory) (base_addr blknum : Nat) : Nat :=
  (mem (base_addr + blknum * BML_BITS_PER_BLK / BITS_PER_UCHAR)).toNat >>>
    (blknum * BML_BITS_PER_BLK % BITS_PER_UCHAR) &&& (1 <<< BML_BITS_PER_BLK - 1)

/-- The part of the last byte that belongs to a map of so many bits. -/
def lastValid (total_bits byte : Nat) : Nat :=
  let bits := total_bits % 8
  if bits = 6 then byte &&& THREE_BLKS_BITMASK
  else if bits = 4 then byte &&& TWO_BLKS_BITMASK
  else if bits = 2 then byte &&& ONE_BLK_BITMASK
  else byte

/-- The part of a byte from the hint on. -/
def hintValid (hint valid : Nat) : Nat :=
  match hint % (8 / BML_BITS_PER_BLK) with
  | 0 => valid
  | 1 => valid &&& 252
  | 2 => valid &&& 240
  | _ => valid &&& 192

/-- The first block of a byte that is not zero, and whether it is in use. -/
def freeInByte (valid : Nat) : Nat × Bool :=
  if valid &&& 1 ≠ 0 then (0, decide (valid &&& 2 ≠ 0))
  else if valid &&& 4 ≠ 0 then (1, decide (valid &&& 8 ≠ 0))
  else if valid &&& 16 ≠ 0 then (2, decide (valid &&& 32 ≠ 0))
  else (3, decide (valid &&& 128 ≠ 0))

/-- The result for a byte at a distance from the start of the map. -/
def foundIn (ptr valid : Nat) : Int × Bool :=
  ((ptr * (8 / BML_BITS_PER_BLK) + (freeInByte valid).1 : Nat), (freeInByte valid).2)

/-- The loop over the bytes before the last, and the last byte. -/
def findBlkLoop (mem : ByteMemory) (base_addr total_bits ptr : Nat) (used : Bool) : Int × Bool :=
  let top := (total_bits + 7) / 8 - 1
  if ptr < top then
    if mem (base_addr + ptr) ≠ 0 then foundIn ptr (mem (base_addr + ptr)).toNat
    else findBlkLoop mem base_addr total_bits (ptr + 1) used
  else if ptr = top ∧ mem (base_addr + ptr) ≠ 0 then
    let valid := lastValid total_bits (mem (base_addr + ptr)).toNat
    if valid ≠ 0 then foundIn ptr valid else (NO_FREE_SPACE, used)
  else (NO_FREE_SPACE, used)
termination_by (total_bits + 7) / 8 - 1 - ptr

/-- `used` is what the caller's flag holds before. -/
def bm_find_blk (hint : Nat) (mem : ByteMemory) (base_addr total_bits : Nat) (used : Bool) : Int × Bool :=
  let total_bits := total_bits * BML_BITS_PER_BLK
  if hint ≠ 0 then
    let ptr := hint * BML_BITS_PER_BLK / 8
    let top := (total_bits + 7) / 8 - 1
    let byte := (mem (base_addr + ptr)).toNat
    let valid := hintValid hint (if ptr = top then lastValid total_bits byte else byte)
    if valid ≠ 0 then foundIn ptr valid else findBlkLoop mem base_addr total_bits (ptr + 1) used
  else findBlkLoop mem base_addr total_bits 0 used

/-- `RETURN_IF_FREE`: the last block of a byte that is not busy. -/
def RETURN_IF_FREE (valid ptr : Nat) : Option Nat :=
  if valid ≠ 0 then
    let bits :=
      if THREE_BLKS_BITMASK < valid then 3
      else if TWO_BLKS_BITMASK < valid then 2
      else if ONE_BLK_BITMASK < valid then 1
      else 0
    some (ptr * (BITS_PER_UCHAR / BML_BITS_PER_BLK) + bits)
  else none

/-- A loop over whole bytes. -/
def freeLoop (mem : ByteMemory) (base_addr ptr top : Nat) : Option Nat :=
  if ptr < top then
    match RETURN_IF_FREE (mem (base_addr + ptr)).toNat ptr with
    | some free => some free
    | none => freeLoop mem base_addr (ptr + 1) top
  else none
termination_by top - ptr

/-- Find a block that is not busy, from `hint` on. -/
def bml_find_free (hint : Nat) (mem : ByteMemory) (base_addr total_bits : Nat) : Int :=
  let hint := hint * BML_BITS_PER_BLK / BITS_PER_UCHAR
  let total_bits := total_bits * BML_BITS_PER_BLK
  let bytes := (total_bits + (BITS_PER_UCHAR - 1)) / BITS_PER_UCHAR
  let hint := if bytes < hint then 0 else hint
  -- behind its loop the pointer is at the last byte, or where it started
  let last := max hint (bytes - 1)
  foundBlock <|
    (freeLoop mem base_addr hint (bytes - 1)).or <|
    (RETURN_IF_FREE (lastValid total_bits (mem (base_addr + last)).toNat) last).or <|
    if hint ≠ 0 then freeLoop mem base_addr 0 hint else none

/-! ## The counter of free blocks -/

def BLKS_PER_LMAP : Nat := 512
def LCL_MAP_LEVL : Nat := 0xFF
def SIZEOF_blk_hdr : Nat := 16
def BM_SIZE (bplm : Nat) : Nat := SIZEOF_blk_hdr + bplm / (BITS_PER_UCHAR / BML_BITS_PER_BLK)

/-- A local map as it is read: fields of its header, and the bytes behind. -/
structure LocalMap where
  bsiz : Nat
  levl : Nat
  map : ByteMemory

/-- What the check of the counter reads: the size of the file, the master map, and
the local maps as `t_qread` gives them. -/
structure FreeBlks where
  total_blks : Nat
  mm : ByteMemory
  t_qread : Nat → Option LocalMap

/-- The map of a bitmap block, if it is read and has the header of one. -/
def FreeBlks.bmp (s : FreeBlks) (bml : Nat) : Option LocalMap :=
  (s.t_qread bml).bind fun bmp =>
    if BM_SIZE BLKS_PER_LMAP ≠ bmp.bsiz ∨ LCL_MAP_LEVL ≠ bmp.levl then none else some bmp

/-- How many local maps there are. -/
def FreeBlks.local_maps (s : FreeBlks) : Nat := (s.total_blks + (BLKS_PER_LMAP - 1)) / BLKS_PER_LMAP

/-- The loop over the blocks of one map that are not busy. -/
def countMap (map : ByteMemory) (maxbitsthismap : Nat) : Nat → Nat → Nat → Option Nat
  | 0, _, _ => none
  | rounds + 1, free_bit, free_blocks =>
    if free_bit < maxbitsthismap then
      let free_bit := (bm_find_blk free_bit map 0 maxbitsthismap false).1
      if free_bit < 0 then some free_blocks
      else countMap map maxbitsthismap rounds (free_bit.toNat + 1) (free_blocks + 1)
    else some free_blocks

/-- How many blocks a local map stands for. -/
def FreeBlks.maxbitsthismap (s : FreeBlks) (free_bml : Nat) : Nat :=
  if free_bml ≠ s.local_maps - 1 then BLKS_PER_LMAP else s.total_blks - free_bml * BLKS_PER_LMAP

/-- The loop over the local maps. -/
def countFree (s : FreeBlks) : Nat → Nat → Nat → Option Nat
  | 0, _, _ => none
  | rounds + 1, free_bml, free_blocks =>
    if free_bml < s.local_maps then
      let bml := bmm_find_free free_bml s.mm 0 s.local_maps
      if bml < free_bml then some free_blocks
      else
        let free_bml := bml.toNat
        match s.bmp (free_bml * BLKS_PER_LMAP) with
        | none => countFree s rounds (free_bml + 1) free_blocks
        | some bmp =>
          (countMap bmp.map (s.maxbitsthismap free_bml) (BLKS_PER_LMAP + 1) 0 free_blocks).bind
            fun free_blocks => countFree s rounds (free_bml + 1) free_blocks
    else some free_blocks

/-- Whether the counter in the file header is right, and the counter it leaves. -/
def is_free_blks_ctr_ok (s : FreeBlks) (free_blocks : Nat) : Option (Bool × Nat) :=
  (countFree s (s.local_maps + 1) 0 0).map fun counted =>
    if free_blocks ≠ counted then (false, counted) else (true, free_blocks)

/-! ## The blocks of a byte -/

/-- The status of one of the four blocks of a byte. -/
def byteStatus (byte j : Nat) : Nat := byte >>> (2 * j) &&& 3

/-- Whether a block is free or recycled. -/
def notBusy (mem : ByteMemory) (base_addr blk : Nat) : Bool :=
  GET_BM_STATUS mem base_addr blk != BLK_BUSY

/-- No entry of the map is invalid. -/
def NoInvalid (mem : ByteMemory) (base_addr total_bits : Nat) : Prop :=
  ∀ blk < total_bits, GET_BM_STATUS mem base_addr blk ≠ BLK_MAPINVALID

/-- A block that was looked for, with the flag for `used`. -/
def foundBlk (mem : ByteMemory) (base_addr : Nat) (blk : Option Nat) (used : Bool) : Int × Bool :=
  match blk with
  | some blk => (blk, GET_BM_STATUS mem base_addr blk == BLK_RECYCLED)
  | none => (NO_FREE_SPACE, used)

theorem status_of_byte (mem : ByteMemory) (base_addr ptr : Nat) {j : Nat} (inside : j < 4) :
    GET_BM_STATUS mem base_addr (4 * ptr + j) = byteStatus (mem (base_addr + ptr)).toNat j := by
  have byte : (4 * ptr + j) * BML_BITS_PER_BLK / BITS_PER_UCHAR = ptr := by
    simp only [BML_BITS_PER_BLK, BITS_PER_UCHAR]
    omega
  have bit : (4 * ptr + j) * BML_BITS_PER_BLK % BITS_PER_UCHAR = 2 * j := by
    simp only [BML_BITS_PER_BLK, BITS_PER_UCHAR]
    omega
  rw [GET_BM_STATUS, byte, bit]
  rfl

/-- What is left of a byte whose first `count` blocks belong to the map, from a hint on, names the
first block that is not busy; nothing is left if there is none. -/
def NamesFirst (byte count hint : Nat) : Bool :=
  let valid := hintValid hint (lastValid (2 * count) byte)
  if (List.range 4).any fun j => hint ≤ j && j < count && byteStatus byte j == BLK_MAPINVALID then true
  else if valid = 0 then
    firstIn (fun j => byteStatus byte j != BLK_BUSY) hint (count - hint) == none
  else
    firstIn (fun j => byteStatus byte j != BLK_BUSY) hint (count - hint) ==
        some (freeInByte valid).1 &&
      (freeInByte valid).2 == (byteStatus byte (freeInByte valid).1 == BLK_RECYCLED)

theorem namesFirst_all : ∀ byte : Fin 256, ∀ count : Fin 5, ∀ hint : Fin 4, 0 < count.val →
    NamesFirst byte count hint = true := by
  decide +kernel

/-- What is left of a byte whose first `count` blocks belong to the map is zero if all are busy, and
else the comparisons name one that is not. -/
def NamesFree (byte count : Nat) : Bool :=
  match RETURN_IF_FREE (lastValid (2 * count) byte) 0 with
  | none => (List.range count).all fun j => byteStatus byte j == BLK_BUSY
  | some j => decide (j < count) && byteStatus byte j != BLK_BUSY

theorem namesFree_all : ∀ byte : Fin 256, ∀ count : Fin 5, 0 < count.val →
    NamesFree byte count = true := by
  decide +kernel

/-! ## The first block -/

section First

variable {mem : ByteMemory} {base_addr : Nat}

/-- A part of a byte, as the scans see it. -/
theorem part_first {ptr count hint : Nat} (some : 0 < count) (four : count ≤ 4) (inside : hint < 4)
    (valid : ∀ j, hint ≤ j → j < count → GET_BM_STATUS mem base_addr (4 * ptr + j) ≠ BLK_MAPINVALID)
    (used : Bool) :
    let left := hintValid hint (lastValid (2 * count) (mem (base_addr + ptr)).toNat)
    let first := firstIn (notBusy mem base_addr) (4 * ptr + hint) (count - hint)
    (left = 0 → first = none) ∧
      (left ≠ 0 → first ≠ none ∧ foundIn ptr left = foundBlk mem base_addr first used) := by
  intro left first
  have named := namesFirst_all ⟨_, (mem (base_addr + ptr)).toNat_lt⟩ ⟨count, by omega⟩ ⟨hint, inside⟩ some
  have shifted : first = (firstIn (fun j => byteStatus (mem (base_addr + ptr)).toNat j != BLK_BUSY) hint
      (count - hint)).map (4 * ptr + ·) := by
    have same : ∀ i, hint ≤ i → i < hint + (count - hint) → notBusy mem base_addr (4 * ptr + i) =
        (byteStatus (mem (base_addr + ptr)).toNat i != BLK_BUSY) := by
      intro i after below
      rw [notBusy, status_of_byte mem base_addr ptr (by omega)]
    rw [← firstIn_congr same]
    exact firstIn_shift _ _ _ _
  have none : ¬ (List.range 4).any (fun j => hint ≤ j && j < count &&
      byteStatus (mem (base_addr + ptr)).toNat j == BLK_MAPINVALID) = true := by
    simp only [List.any_eq_true, List.mem_range, Bool.and_eq_true, decide_eq_true_eq, beq_iff_eq]
    rintro ⟨j, small, ⟨after, below⟩, invalid⟩
    apply valid j after below
    rw [status_of_byte mem base_addr ptr small]
    exact invalid
  unfold NamesFirst at named
  dsimp only at named
  rw [if_neg none] at named
  constructor
  · intro zero
    rw [if_pos zero, beq_iff_eq] at named
    rw [shifted, named]
    rfl
  · intro nonzero
    rw [if_neg nonzero, Bool.and_eq_true, beq_iff_eq, beq_iff_eq] at named
    obtain ⟨found, flag⟩ := named
    have within := (firstIn_eq_some_iff.mp found).2.1
    rw [shifted, found, Option.map_some]
    refine ⟨Option.some_ne_none _, ?_⟩
    have scale : ptr * (8 / BML_BITS_PER_BLK) = 4 * ptr := Nat.mul_comm _ _
    rw [foundBlk, foundIn, scale, flag, status_of_byte mem base_addr ptr (by omega)]

theorem lastValid_four (byte : Nat) : lastValid (2 * 4) byte = byte := rfl

theorem hintValid_zero (valid : Nat) : hintValid 0 valid = valid := rfl

theorem lastValid_zero (total_bits : Nat) : lastValid total_bits 0 = 0 := by
  unfold lastValid
  simp

/-- Only the part of the last byte counts in the number of bits. -/
theorem lastValid_mod {total count top : Nat} (split : total = 4 * top + count) (byte : Nat) :
    lastValid (2 * total) byte = lastValid (2 * count) byte := by
  have bits : 2 * total % 8 = 2 * count % 8 := by omega
  unfold lastValid
  rw [bits]

theorem toNat_ne_zero {byte : UInt8} (nonzero : byte ≠ 0) : byte.toNat ≠ 0 := by
  intro zero
  exact nonzero (UInt8.toNat_inj.mp zero)

/-- The loop finds the first block from a byte on. -/
theorem findBlkLoop_eq {total ptr : Nat} (some : 0 < total) (noInvalid : NoInvalid mem base_addr total)
    (used : Bool) :
    findBlkLoop mem base_addr (2 * total) ptr used =
      foundBlk mem base_addr (firstIn (notBusy mem base_addr) (4 * ptr) (total - 4 * ptr)) used := by
  induction left : total - 4 * ptr using Nat.strong_induction_on generalizing ptr with
  | _ n ih =>
    rw [findBlkLoop]
    dsimp only
    obtain ⟨top, isTop⟩ : ∃ top, (2 * total + 7) / 8 - 1 = top := ⟨_, rfl⟩
    rw [isTop]
    by_cases before : ptr < top
    · have whole : n = 4 + (total - 4 * (ptr + 1)) := by omega
      obtain ⟨zero, nonzero⟩ := @part_first mem base_addr ptr _ _
        (by decide : 0 < 4) (le_refl 4) (by decide : 0 < 4) (fun j _ below => noInvalid _ (by omega)) used
      rw [lastValid_four, hintValid_zero] at zero nonzero
      rw [if_pos before, whole, firstIn_append]
      by_cases byte : mem (base_addr + ptr) ≠ 0
      · obtain ⟨present, found⟩ := nonzero (toNat_ne_zero byte)
        obtain ⟨blk, isBlk⟩ := Option.ne_none_iff_exists'.mp present
        rw [if_pos byte, found]
        rw [Nat.add_zero] at isBlk ⊢
        rw [isBlk, Option.some_or]
      · have isZero : (mem (base_addr + ptr)).toNat = 0 := by
          rw [not_not.mp byte]
          rfl
        have none := zero isZero
        rw [Nat.add_zero] at none
        rw [if_neg byte, none, Option.none_or]
        exact ih _ (by omega) rfl
    · rw [if_neg before]
      by_cases last : ptr = top
      · obtain ⟨count, split, positive, four⟩ : ∃ count, total = 4 * top + count ∧ 0 < count ∧ count ≤ 4 :=
          ⟨total - 4 * top, by omega, by omega, by omega⟩
        have width : n = count := by omega
        obtain ⟨zero, nonzero⟩ := @part_first mem base_addr ptr _ _
          positive four (by decide : 0 < 4) (fun j _ below => noInvalid _ (by omega)) used
        rw [hintValid_zero, Nat.add_zero, Nat.sub_zero] at zero nonzero
        rw [width, lastValid_mod split]
        by_cases valid : lastValid (2 * count) (mem (base_addr + ptr)).toNat = 0
        · rw [zero valid, if_neg (not_not.mpr valid), ite_self]
          rfl
        · have byte : mem (base_addr + ptr) ≠ 0 := by
            intro isZero
            apply valid
            rw [isZero]
            exact lastValid_zero _
          rw [if_pos ⟨last, byte⟩, if_pos valid, (nonzero valid).2]
      · have none : n = 0 := by omega
        rw [if_neg fun reached => last reached.1, none]
        rfl

/-- The answer is the first block at or behind the hint that is not busy. -/
theorem bm_find_blk_eq {hint total_bits : Nat} (inside : hint < total_bits)
    (noInvalid : NoInvalid mem base_addr total_bits) (used : Bool) :
    bm_find_blk hint mem base_addr total_bits used =
      foundBlk mem base_addr (firstIn (notBusy mem base_addr) hint (total_bits - hint)) used := by
  have some : 0 < total_bits := by omega
  have twice : total_bits * BML_BITS_PER_BLK = 2 * total_bits := Nat.mul_comm _ _
  unfold bm_find_blk
  dsimp only
  rw [twice]
  by_cases first : hint ≠ 0
  · obtain ⟨ptr, isPtr⟩ : ∃ ptr, hint * BML_BITS_PER_BLK / 8 = ptr := ⟨_, rfl⟩
    have two : BML_BITS_PER_BLK = 2 := rfl
    have place : hint = 4 * ptr + hint % 4 := by
      rw [two] at isPtr
      omega
    have masks : ∀ valid, hintValid hint valid = hintValid (hint % 4) valid := by
      intro valid
      have reduced : hint % 4 % 4 = hint % 4 := by omega
      unfold hintValid
      rw [two, reduced]
    -- how many blocks of this byte belong to the map
    obtain ⟨count, positive, four, within, left, bytes⟩ : ∃ count, hint % 4 < count ∧ count ≤ 4 ∧
        4 * ptr + count ≤ total_bits ∧
        (if ptr = (2 * total_bits + 7) / 8 - 1 then
          lastValid (2 * total_bits) (mem (base_addr + ptr)).toNat else (mem (base_addr + ptr)).toNat) =
            lastValid (2 * count) (mem (base_addr + ptr)).toNat ∧
        total_bits - (4 * ptr + count) = total_bits - 4 * (ptr + 1) := by
      by_cases last : ptr = (2 * total_bits + 7) / 8 - 1
      · refine ⟨total_bits - 4 * ptr, by omega, by omega, by omega, ?_, by omega⟩
        have split : total_bits = 4 * ptr + (total_bits - 4 * ptr) := by omega
        rw [if_pos last]
        exact lastValid_mod split _
      · refine ⟨4, by omega, le_refl 4, by omega, ?_, by omega⟩
        rw [if_neg last, lastValid_four]
    have parts : total_bits - hint = (count - hint % 4) + (total_bits - 4 * (ptr + 1)) := by omega
    have behind : 4 * ptr + hint % 4 + (count - hint % 4) = 4 * ptr + count := by omega
    obtain ⟨zero, nonzero⟩ := @part_first mem base_addr ptr _ _
      (by omega : 0 < count) four (Nat.mod_lt hint (by decide : 0 < 4))
      (fun j _ below => noInvalid _ (by omega)) used
    rw [← place] at zero nonzero
    rw [if_pos first, isPtr, left, masks, parts, firstIn_append]
    by_cases valid : hintValid (hint % 4) (lastValid (2 * count) (mem (base_addr + ptr)).toNat) = 0
    · have start : firstIn (notBusy mem base_addr) (hint + (count - hint % 4)) (total_bits - 4 * (ptr + 1)) =
          firstIn (notBusy mem base_addr) (4 * (ptr + 1)) (total_bits - 4 * (ptr + 1)) := by
        by_cases full : count = 4
        · have same : hint + (count - hint % 4) = 4 * (ptr + 1) := by omega
          rw [same]
        · have none : total_bits - 4 * (ptr + 1) = 0 := by omega
          rw [none]
          rfl
      rw [if_neg (not_not.mpr valid), zero valid, Option.none_or, start]
      exact findBlkLoop_eq some noInvalid used
    · obtain ⟨present, found⟩ := nonzero valid
      obtain ⟨blk, isBlk⟩ := Option.ne_none_iff_exists'.mp present
      rw [if_pos valid, found, isBlk, Option.some_or]
  · have none : hint = 0 := not_not.mp first
    rw [if_neg first, findBlkLoop_eq some noInvalid, none]

end First

/-! ## Any block -/

section Any

variable {mem : ByteMemory} {base_addr : Nat}

theorem RETURN_IF_FREE_shift (valid ptr : Nat) :
    RETURN_IF_FREE valid ptr = (RETURN_IF_FREE valid 0).map (4 * ptr + ·) := by
  have scale : ptr * (BITS_PER_UCHAR / BML_BITS_PER_BLK) = 4 * ptr := Nat.mul_comm _ _
  unfold RETURN_IF_FREE
  rw [scale]
  split_ifs <;> simp

/-- The part of a byte that belongs to the map, as the search for any block sees it. -/
theorem part_any {ptr count : Nat} (some : 0 < count) (four : count ≤ 4) :
    match RETURN_IF_FREE (lastValid (2 * count) (mem (base_addr + ptr)).toNat) ptr with
    | none => ∀ blk, 4 * ptr ≤ blk → blk < 4 * ptr + count → GET_BM_STATUS mem base_addr blk = BLK_BUSY
    | Option.some blk => blk < 4 * ptr + count ∧ GET_BM_STATUS mem base_addr blk ≠ BLK_BUSY := by
  have named := namesFree_all ⟨_, (mem (base_addr + ptr)).toNat_lt⟩ ⟨count, by omega⟩ some
  unfold NamesFree at named
  dsimp only at named
  rw [RETURN_IF_FREE_shift]
  cases found : RETURN_IF_FREE (lastValid (2 * count) (mem (base_addr + ptr)).toNat) 0 with
  | none =>
    rw [found] at named
    intro blk after below
    have busy := List.all_eq_true.mp named (blk - 4 * ptr) (List.mem_range.mpr (by omega))
    have place : blk = 4 * ptr + (blk - 4 * ptr) := by omega
    rw [place, status_of_byte mem base_addr ptr (by omega)]
    exact beq_iff_eq.mp busy
  | some j =>
    rw [found] at named
    dsimp only at named
    rw [Bool.and_eq_true, decide_eq_true_eq, bne_iff_ne] at named
    dsimp only [Option.map_some]
    rw [status_of_byte mem base_addr ptr (by omega)]
    exact ⟨by omega, named.2⟩

/-- What a search of a part of the map tells: a block that is not busy, or that all are. -/
def Searched (mem : ByteMemory) (base_addr start stop : Nat) : Option Nat → Prop
  | none => ∀ blk, start ≤ blk → blk < stop → GET_BM_STATUS mem base_addr blk = BLK_BUSY
  | some blk => blk < stop ∧ GET_BM_STATUS mem base_addr blk ≠ BLK_BUSY

/-- The search word by word misses no free block. -/
theorem freeLoop_searched (ptr top : Nat) :
    Searched mem base_addr (4 * ptr) (4 * top) (freeLoop mem base_addr ptr top) := by
  induction left : top - ptr generalizing ptr with
  | zero =>
    rw [freeLoop, if_neg (by omega)]
    intro blk after below
    omega
  | succ n ih =>
    have part := @part_any mem base_addr ptr _ (by decide : 0 < 4) (le_refl 4)
    rw [lastValid_four] at part
    rw [freeLoop, if_pos (by omega)]
    cases found : RETURN_IF_FREE (mem (base_addr + ptr)).toNat ptr with
    | none =>
      rw [found] at part
      have rest := ih (ptr + 1) (by omega)
      dsimp only
      cases later : freeLoop mem base_addr (ptr + 1) top with
      | none =>
        rw [later] at rest
        intro blk after below
        by_cases here : blk < 4 * ptr + 4
        · exact part blk after here
        · exact rest blk (by omega) below
      | some blk =>
        rw [later] at rest
        exact rest
    | some blk =>
      rw [found] at part
      exact ⟨by omega, part.2⟩

/-- With a hint in the map the answer is a block of the map that is not busy, if there is one. -/
theorem bml_find_free_spec {hint total_bits : Nat} (inside : hint < total_bits) :
    (bml_find_free hint mem base_addr total_bits = NO_FREE_SPACE ∧
        ∀ blk < total_bits, GET_BM_STATUS mem base_addr blk = BLK_BUSY) ∨
      ∃ blk < total_bits, bml_find_free hint mem base_addr total_bits = blk ∧
        GET_BM_STATUS mem base_addr blk ≠ BLK_BUSY := by
  have two : BML_BITS_PER_BLK = 2 := rfl
  have eight : BITS_PER_UCHAR = 8 := rfl
  unfold bml_find_free
  dsimp only
  obtain ⟨start, isStart⟩ : ∃ start, hint * BML_BITS_PER_BLK / BITS_PER_UCHAR = start := ⟨_, rfl⟩
  obtain ⟨top, isTop⟩ :
      ∃ top, (total_bits * BML_BITS_PER_BLK + (BITS_PER_UCHAR - 1)) / BITS_PER_UCHAR = top + 1 := by
    refine ⟨(total_bits * 2 + 7) / 8 - 1, ?_⟩
    rw [two, eight]
    omega
  have near : start ≤ top := by
    rw [two, eight] at isStart isTop
    omega
  obtain ⟨count, split, positive, four⟩ : ∃ count, total_bits = 4 * top + count ∧ 0 < count ∧ count ≤ 4 := by
    rw [two, eight] at isTop
    exact ⟨total_bits - 4 * top, by omega, by omega, by omega⟩
  have twice : total_bits * BML_BITS_PER_BLK = 2 * total_bits := Nat.mul_comm _ _
  rw [isStart, isTop, if_neg (by omega : ¬ top + 1 < start), Nat.add_sub_cancel, max_eq_right near, twice,
    lastValid_mod split]
  have bytes := @freeLoop_searched mem base_addr start top
  have last := @part_any mem base_addr top _ positive four
  have wrapped := @freeLoop_searched mem base_addr 0 start
  cases first : freeLoop mem base_addr start top with
  | some blk =>
    rw [first] at bytes
    rw [Option.some_or]
    exact .inr ⟨blk, by have below := bytes.1; omega, rfl, bytes.2⟩
  | none =>
    rw [first] at bytes
    rw [Option.none_or]
    cases second : RETURN_IF_FREE (lastValid (2 * count) (mem (base_addr + top)).toNat) top with
    | some blk =>
      rw [second] at last
      rw [Option.some_or]
      exact .inr ⟨blk, by have below := last.1; omega, rfl, last.2⟩
    | none =>
      rw [second] at last
      rw [Option.none_or]
      have third : ∀ found, found = (if start ≠ 0 then freeLoop mem base_addr 0 start else none) →
          Searched mem base_addr 0 (4 * start) found := by
        rintro found rfl
        by_cases some : start ≠ 0
        · rw [if_pos some]
          exact wrapped
        · rw [if_neg some]
          intro blk _ below
          omega
      cases rest : (if start ≠ 0 then freeLoop mem base_addr 0 start else none) with
      | some blk =>
        obtain ⟨below, free⟩ := third _ rest.symm
        exact .inr ⟨blk, by omega, rfl, free⟩
      | none =>
        have clear := third _ rest.symm
        refine .inl ⟨rfl, ?_⟩
        intro blk within
        by_cases early : blk < 4 * start
        · exact clear blk (Nat.zero_le blk) early
        · by_cases whole : blk < 4 * top
          · exact bytes blk (by omega) whole
          · exact last blk (by omega) (by omega)

end Any

/-! ## The count -/

/-- The blocks of a map that are not busy. -/
def freeBlocksOf (map : ByteMemory) (maxbitsthismap : Nat) : Nat :=
  ((List.range maxbitsthismap).filter (notBusy map 0)).length

/-- The blocks that are not busy in the map of a bitmap block; none of a map that is not read. -/
def FreeBlks.freeOf (s : FreeBlks) (free_bml : Nat) : Nat :=
  match s.bmp (free_bml * BLKS_PER_LMAP) with
  | none => 0
  | some bmp => freeBlocksOf bmp.map (s.maxbitsthismap free_bml)

/-- The local maps that the master map marks as not full. -/
def FreeBlks.notFull (s : FreeBlks) : List Nat := (List.range s.local_maps).filter (mapBit s.mm 0)

/-- The free blocks of the maps that are not full. -/
def FreeBlks.freeCount (s : FreeBlks) : Nat := (s.notFull.map s.freeOf).sum

/-- No entry is invalid in the maps that are counted. -/
def FreeBlks.NoInvalid (s : FreeBlks) : Prop :=
  ∀ free_bml ∈ s.notFull, ∀ bmp, s.bmp (free_bml * BLKS_PER_LMAP) = some bmp →
    Bitmap.NoInvalid bmp.map 0 (s.maxbitsthismap free_bml)

/-- The loop counts the blocks that are not busy. -/
theorem countMap_eq {map : ByteMemory} {maxbits : Nat} (noInvalid : NoInvalid map 0 maxbits) (rounds : Nat)
    {free_bit : Nat} (free_blocks : Nat) (enough : maxbits - free_bit < rounds) :
    countMap map maxbits rounds free_bit free_blocks =
      some (free_blocks + ((List.range' free_bit (maxbits - free_bit)).filter (notBusy map 0)).length) := by
  induction rounds generalizing free_bit free_blocks with
  | zero => omega
  | succ rounds ih =>
    rw [countMap]
    by_cases more : free_bit < maxbits
    · rw [if_pos more, bm_find_blk_eq more noInvalid, filter_firstIn _ more.le]
      cases found : firstIn (notBusy map 0) free_bit (maxbits - free_bit) with
      | none => rfl
      | some blk =>
        obtain ⟨after, below, _⟩ := firstIn_eq_some_iff.mp found
        have present : ¬ (foundBlk map 0 (some blk) false).1 < 0 := Int.not_lt.mpr (Int.natCast_nonneg blk)
        have back : (foundBlk map 0 (some blk) false).1.toNat = blk := Int.toNat_natCast blk
        dsimp only
        rw [if_neg present, back, ih _ (by omega), List.length_cons, Nat.add_right_comm,
          Nat.add_assoc]
    · have none : maxbits - free_bit = 0 := by omega
      rw [if_neg more, none]
      rfl

theorem FreeBlks.maxbits_le (s : FreeBlks) (free_bml : Nat) : s.maxbitsthismap free_bml ≤ BLKS_PER_LMAP := by
  have size : BLKS_PER_LMAP = 512 := rfl
  rw [size]
  unfold maxbitsthismap local_maps
  rw [size]
  by_cases last : free_bml = (s.total_blks + (512 - 1)) / 512 - 1
  · rw [if_neg (not_not.mpr last)]
    omega
  · rw [if_pos last]

/-- The count is that of the maps. -/
theorem countFree_eq {s : FreeBlks} (noInvalid : s.NoInvalid) (rounds : Nat) {free_bml : Nat}
    (free_blocks : Nat) (inside : free_bml ≤ s.local_maps) (enough : s.local_maps - free_bml < rounds) :
    countFree s rounds free_bml free_blocks =
      some (free_blocks + (((List.range' free_bml (s.local_maps - free_bml)).filter
        (mapBit s.mm 0)).map s.freeOf).sum) := by
  induction rounds generalizing free_bml free_blocks with
  | zero => omega
  | succ rounds ih =>
    rw [countFree]
    by_cases more : free_bml < s.local_maps
    · rw [if_pos more, bmm_find_free_eq, if_neg (Nat.not_le.mpr more), filter_firstIn _ inside]
      dsimp only
      cases found : firstIn (mapBit s.mm 0) free_bml (s.local_maps - free_bml) with
      | none =>
        -- the search wraps to a map already seen, or finds none
        have before : foundBlock (Option.none.or (firstIn (mapBit s.mm 0) 0 free_bml)) < (free_bml : Int) := by
          rw [Option.none_or]
          cases wrapped : firstIn (mapBit s.mm 0) 0 free_bml with
          | none =>
            have counted : (0 : Int) ≤ free_bml := Int.natCast_nonneg free_bml
            exact Int.lt_of_lt_of_le (by decide) counted
          | some bml =>
            have below := (firstIn_eq_some_iff.mp wrapped).2.1
            exact Int.ofNat_lt.mpr (by omega)
        rw [if_pos before]
        rfl
      | some bml =>
        obtain ⟨after, below, marked, _⟩ := firstIn_eq_some_iff.mp found
        have present : ¬ foundBlock ((some bml).or (firstIn (mapBit s.mm 0) 0 free_bml)) < (free_bml : Int) := by
          rw [Option.some_or]
          exact Int.not_lt.mpr (Int.ofNat_le.mpr after)
        have back : (foundBlock ((some bml).or (firstIn (mapBit s.mm 0) 0 free_bml))).toNat = bml := by
          rw [Option.some_or]
          exact Int.toNat_natCast bml
        have counted : bml < s.local_maps := by omega
        rw [if_neg present, back, List.map_cons, List.sum_cons, FreeBlks.freeOf]
        cases read : s.bmp (bml * BLKS_PER_LMAP) with
        | none =>
          dsimp only
          rw [ih _ (by omega) (by omega), Nat.zero_add]
        | some bmp =>
          have listed : bml ∈ s.notFull := List.mem_filter.mpr ⟨List.mem_range.mpr counted, marked⟩
          have short := s.maxbits_le bml
          have each := countMap_eq (noInvalid bml listed bmp read) (BLKS_PER_LMAP + 1) free_blocks
            (by omega : s.maxbitsthismap bml - 0 < BLKS_PER_LMAP + 1)
          dsimp only
          rw [each, Option.bind_some, ih _ (by omega) (by omega), freeBlocksOf,
            List.range_eq_range', Nat.sub_zero, Nat.add_assoc]
    · have none : s.local_maps - free_bml = 0 := by omega
      rw [if_neg more, none]
      rfl

/-- The check counts the blocks that are not busy in the maps that are not full, and leaves that number
in the counter. -/
theorem is_free_blks_ctr_ok_eq {s : FreeBlks} (noInvalid : s.NoInvalid) (free_blocks : Nat) :
    is_free_blks_ctr_ok s free_blocks = some (decide (free_blocks = s.freeCount), s.freeCount) := by
  have counted := countFree_eq noInvalid (s.local_maps + 1) 0 (Nat.zero_le _) (by omega)
  rw [Nat.zero_add, Nat.sub_zero, ← List.range_eq_range'] at counted
  rw [is_free_blks_ctr_ok, counted, Option.map_some]
  change some (if free_blocks ≠ s.freeCount then (false, s.freeCount) else (true, free_blocks)) = _
  by_cases right : free_blocks = s.freeCount
  · rw [if_neg (not_not.mpr right), decide_eq_true right, right]
  · rw [if_pos right, decide_eq_false right]

/-- Every scan finds what a search bit by bit would find: `gtm_ffs` the first set bit of the range,
`bmm_find_free` the first from the hint on and around, `bm_find_blk` the first block that is not busy,
with the flag of its status, and `bml_find_free` any such block; the check of the counter counts them
all. -/
theorem scans_find_first :
    (∀ offset mem addr size,
      gtm_ffs offset mem addr size = foundBlock (firstIn (mapBit mem addr) offset size)) ∧
    (∀ hint mem base_addr total_bits, hint < total_bits →
      bmm_find_free hint mem base_addr total_bits =
        foundBlock ((firstIn (mapBit mem base_addr) hint (total_bits - hint)).or
          (firstIn (mapBit mem base_addr) 0 hint))) ∧
    (∀ hint mem base_addr total_bits, total_bits ≤ hint →
      bmm_find_free hint mem base_addr total_bits =
        foundBlock (firstIn (mapBit mem base_addr) 0 total_bits)) ∧
    (∀ hint mem base_addr total_bits used, hint < total_bits → NoInvalid mem base_addr total_bits →
      bm_find_blk hint mem base_addr total_bits used =
        foundBlk mem base_addr (firstIn (notBusy mem base_addr) hint (total_bits - hint)) used) ∧
    (∀ s : FreeBlks, s.NoInvalid → ∀ free_blocks,
      is_free_blks_ctr_ok s free_blocks = some (decide (free_blocks = s.freeCount), s.freeCount)) ∧
    (∀ hint mem base_addr total_bits, hint < total_bits →
      (bml_find_free hint mem base_addr total_bits = NO_FREE_SPACE ∧
          ∀ blk < total_bits, GET_BM_STATUS mem base_addr blk = BLK_BUSY) ∨
        ∃ blk < total_bits, bml_find_free hint mem base_addr total_bits = blk ∧
          GET_BM_STATUS mem base_addr blk ≠ BLK_BUSY) := by
  refine ⟨gtm_ffs_eq, ?_, ?_, ?_, ?_, ?_⟩
  · intro hint mem base_addr total_bits inside
    rw [bmm_find_free_eq, if_neg (Nat.not_le.mpr inside)]
  · intro hint mem base_addr total_bits outside
    rw [bmm_find_free_eq, if_pos outside, Nat.sub_zero, firstIn, Option.or_none]
  · intro hint mem base_addr total_bits used inside noInvalid
    exact bm_find_blk_eq inside noInvalid used
  · intro s noInvalid free_blocks
    exact is_free_blks_ctr_ok_eq noInvalid free_blocks
  · intro hint mem base_addr total_bits inside
    exact bml_find_free_spec inside

/-- A local map of twelve blocks, all busy but block 9, which is recycled. -/
def smallMap : ByteMemory := fun a => if a = 2 then 0x0C else 0

/-- A file with this map. -/
def smallFile : FreeBlks where
  total_blks := 12
  mm _ := 1
  t_qread _ := some ⟨BM_SIZE BLKS_PER_LMAP, LCL_MAP_LEVL, smallMap⟩

/-- The scans find the bits of block 9, from a hint behind it too. -/
theorem scans_find_first_small :
    gtm_ffs 5 smallMap 0 19 = 18 ∧ bmm_find_free 20 smallMap 0 24 = 18 ∧
      bmm_find_free 30 smallMap 0 24 = 18 ∧ bm_find_blk 5 smallMap 0 12 false = (9, true) ∧
      is_free_blks_ctr_ok smallFile 2 = some (false, 1) ∧
      ((bml_find_free 10 smallMap 0 12 = NO_FREE_SPACE ∧
          ∀ blk < 12, GET_BM_STATUS smallMap 0 blk = BLK_BUSY) ∨
        ∃ blk : Nat, blk < 12 ∧ bml_find_free 10 smallMap 0 12 = blk ∧
          GET_BM_STATUS smallMap 0 blk ≠ BLK_BUSY) := by
  have noInvalid : NoInvalid smallMap 0 12 := by
    unfold NoInvalid
    decide
  have fileOk : smallFile.NoInvalid := by
    intro free_bml member bmp read
    have first : free_bml = 0 := by
      have all : ∀ n ∈ smallFile.notFull, n = 0 := by decide +kernel
      exact all free_bml member
    have isMap : smallFile.bmp (free_bml * BLKS_PER_LMAP) =
        some ⟨BM_SIZE BLKS_PER_LMAP, LCL_MAP_LEVL, smallMap⟩ := rfl
    have width : smallFile.maxbitsthismap 0 = 12 := by decide
    rw [isMap, Option.some.injEq] at read
    rw [← read, first, width]
    exact noInvalid
  obtain ⟨ffs, around, start, find, counter, bml⟩ := scans_find_first
  refine ⟨?_, ?_, ?_, ?_, ?_, bml 10 smallMap 0 12 (by decide)⟩
  · rw [ffs]
    decide +kernel
  · rw [around 20 smallMap 0 24 (by decide)]
    decide +kernel
  · rw [start 30 smallMap 0 24 (by decide)]
    decide +kernel
  · rw [find 5 smallMap 0 12 false (by decide) noInvalid]
    decide +kernel
  · rw [counter smallFile fileOk 2]
    decide +kernel

end Ydb.Bitmap
