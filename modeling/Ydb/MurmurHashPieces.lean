import Mathlib.Data.List.Induction
import Mathlib.Data.Nat.Basic
import Mathlib.Order.Basic
import Ydb.MurmurHash

/-!
# Independence of the pieces

The state of progressive hashing is determined by the bytes ingested: the hash of the
complete blocks, and the rest in the two words that are carried. A piece is absorbed
behind this rest, however it is cut.
-/

namespace Ydb

open Lib

/-- A block changes the hash. -/
def blockStep (h : ydb_uint16) (block : List UInt8) : ydb_uint16 :=
  PROCESS_BLOCK (word block) (word (block.drop 8)) h

/-- The state with a hash and the bytes carried. -/
def carrying (h : ydb_uint16) (rest : List UInt8) : hash128_state_t :=
  ⟨h, ⟨word rest, word (rest.drop 8)⟩, rest.length⟩

@[simp] theorem carrying_h (h : ydb_uint16) (rest : List UInt8) : (carrying h rest).h = h := rfl

@[simp] theorem carrying_one (h : ydb_uint16) (rest : List UInt8) :
    (carrying h rest).c.one = word rest := rfl

@[simp] theorem carrying_two (h : ydb_uint16) (rest : List UInt8) :
    (carrying h rest).c.two = word (rest.drop 8) := rfl

@[simp] theorem carrying_carry_bytes (h : ydb_uint16) (rest : List UInt8) :
    (carrying h rest).carry_bytes = rest.length := rfl

/-- The state that follows from a hash and bytes behind it. -/
def absorbed (h : ydb_uint16) (bytes : List UInt8) : hash128_state_t :=
  carrying (absorbBlocks blockStep 16 h bytes).1 (absorbBlocks blockStep 16 h bytes).2

variable {h : ydb_uint16} {rest key : List UInt8}

theorem absorbed_short (short : rest.length < 16) : absorbed h rest = carrying h rest := by
  rw [absorbed, absorbBlocks_short short]

theorem absorbed_append (h : ydb_uint16) (bytes more : List UInt8) :
    absorbed h (bytes ++ more) = absorbed (absorbBlocks blockStep 16 h bytes).1
      ((absorbBlocks blockStep 16 h bytes).2 ++ more) := by
  rw [absorbed, absorbBlocks_append, absorbed]

/-- Sixteen bytes make up a block. -/
theorem blockStep_take (h : ydb_uint16) (bytes : List UInt8) :
    blockStep h (bytes.take 16) = blockStep h bytes := by
  have second : word ((bytes.take 16).drop 8) = word (bytes.drop 8) := by
    rw [List.drop_take]
    exact word_take _
  have first : word (bytes.take 16) = word bytes := by
    rw [← word_take (bytes.take 16), List.take_take]
    exact word_take bytes
  rw [blockStep, blockStep, first, second]

theorem absorbed_block (full : 16 ≤ rest.length) :
    absorbed h rest = absorbed (blockStep h rest) (rest.drop 16) := by
  have length : (rest.take 16).length = 16 := by
    rw [List.length_take]
    omega
  have cut : absorbed h rest = absorbed h (rest.take 16 ++ rest.drop 16) := by rw [List.take_append_drop]
  rw [cut, absorbed, absorbBlocks_block (by decide) length, blockStep_take, absorbed]

/-! ## Adding bytes to a word -/

theorem shiftedByte_eq (b : UInt8) (place : Nat) : shiftedByte b place = word [b] <<< (8 * place) := by
  simp [shiftedByte, word, Nat.mul_comm]

/-- Bytes that are added at a place in the lower word. -/
theorem addLower_eq (bytes : List UInt8) (place : Nat) (c1 : BitVec 64) :
    addLower bytes.reverse (place + bytes.length) c1 = c1 ||| (word bytes <<< (8 * place)) := by
  induction bytes using List.reverseRecOn generalizing c1 with
  | nil => simp [addLower, word]
  | append_singleton bytes b ih =>
    have offset : place + (bytes ++ [b]).length = place + bytes.length + 1 := by
      rw [List.length_append, List.length_singleton, Nat.add_assoc]
    rw [List.reverse_append, List.reverse_singleton, List.singleton_append, offset, addLower,
      Nat.add_sub_cancel, ih, shiftedByte_eq, word_append, BitVec.shiftLeft_or_distrib,
      ← BitVec.shiftLeft_add, BitVec.or_assoc, Nat.mul_add, Nat.add_comm (8 * place)]
    congr 1
    exact BitVec.or_comm _ _

/-- Of bytes that reach into the upper word, the others are left. -/
theorem addUpper_eq (lower upper : List UInt8) (place : Nat) (c2 : BitVec 64)
    (begins : lower = [] ∨ place = 0) :
    addUpper (lower ++ upper).reverse (8 + place + upper.length) c2 =
      (lower.reverse, 8 + place, c2 ||| (word upper <<< (8 * place))) := by
  induction upper using List.reverseRecOn generalizing c2 with
  | nil =>
    have stop : addUpper lower.reverse (8 + place) c2 = (lower.reverse, 8 + place, c2) := by
      rcases begins with rfl | rfl
      · rfl
      · cases lower.reverse with
        | nil => rfl
        | cons b bytes => rw [addUpper, if_neg (by decide)]
    simp [stop, word]
  | append_singleton upper b ih =>
    have offset : 8 + place + (upper ++ [b]).length = 8 + place + upper.length + 1 := by
      rw [List.length_append, List.length_singleton]
      omega
    have position : 8 + place + upper.length + 1 - 9 = place + upper.length := by omega
    rw [← List.append_assoc, List.reverse_append, List.reverse_singleton, List.singleton_append, offset,
      addUpper, if_pos (by omega), Nat.add_sub_cancel, position, ih, shiftedByte_eq,
      word_append, BitVec.shiftLeft_or_distrib, ← BitVec.shiftLeft_add, BitVec.or_assoc, Nat.mul_add,
      Nat.add_comm (8 * place)]
    congr 3
    exact BitVec.or_comm _ _

theorem word_of_le {front : List UInt8} (full : 8 ≤ front.length) (back : List UInt8) :
    word (front ++ back) = word front := by
  rw [← word_take, List.take_append_of_le_length full, word_take]

/-- Bytes added to the block in the state. -/
theorem ADD_BYTES_spec {count : Nat} (fits : rest.length + count ≤ 16) (enough : count ≤ key.length) :
    ADD_BYTES (carrying h rest) key count = carrying h (rest ++ key.take count) := by
  have length : (key.take count).length = count := by
    rw [List.length_take]
    omega
  have total : (rest ++ key.take count).length = rest.length + count := by
    rw [List.length_append, length]
  generalize added : key.take count = bytes at length total ⊢
  unfold ADD_BYTES carrying
  dsimp only
  rw [added, total]
  by_cases low : rest.length + count ≤ 8
  · -- all bytes belong to the lower word
    have upper : addUpper bytes.reverse (rest.length + count) (word (rest.drop 8)) =
        (bytes.reverse, rest.length + count, word (rest.drop 8)) := by
      cases bytes.reverse with
      | nil => rfl
      | cons b bytes => rw [addUpper, if_neg (by omega)]
    have none : rest.drop 8 = [] := List.drop_eq_nil_of_le (by omega)
    have none' : (rest ++ bytes).drop 8 = [] := List.drop_eq_nil_of_le (by omega)
    rw [upper]
    dsimp only
    rw [← length, addLower_eq, ← word_append, none, none']
  · by_cases high : 8 ≤ rest.length
    · -- all bytes belong to the upper word
      have offset : rest.length + count = 8 + (rest.length - 8) + bytes.length := by omega
      have upper := addUpper_eq [] bytes (rest.length - 8) (word (rest.drop 8)) (.inl rfl)
      rw [List.nil_append] at upper
      have second : word ((rest ++ bytes).drop 8) =
          word (rest.drop 8) ||| (word bytes <<< (8 * (rest.length - 8))) := by
        rw [List.drop_append_of_le_length high, word_append, List.length_drop]
      rw [offset, upper]
      dsimp only
      rw [List.reverse_nil, addLower, second, word_of_le high]
    · -- the bytes fill up the lower word
      have split : bytes.take (8 - rest.length) ++ bytes.drop (8 - rest.length) = bytes :=
        List.take_append_drop _ _
      have short : (bytes.take (8 - rest.length)).length = 8 - rest.length := by
        rw [List.length_take]
        omega
      have offset : rest.length + count = 8 + 0 + (bytes.drop (8 - rest.length)).length := by
        rw [List.length_drop]
        omega
      have place : 8 = rest.length + (bytes.take (8 - rest.length)).length := by omega
      have upper := addUpper_eq (bytes.take (8 - rest.length)) (bytes.drop (8 - rest.length)) 0
        (word (rest.drop 8)) (.inr rfl)
      rw [split] at upper
      have none : rest.drop 8 = [] := List.drop_eq_nil_of_le (by omega)
      have first : word (rest ++ bytes) = word (rest ++ bytes.take (8 - rest.length)) := by
        rw [← split, ← List.append_assoc, word_of_le (by rw [List.length_append]; omega), split]
      have second : (rest ++ bytes).drop 8 = bytes.drop (8 - rest.length) := by
        rw [List.drop_append, none, List.nil_append]
      have lower := addLower_eq (bytes.take (8 - rest.length)) rest.length (word rest)
      rw [← place] at lower
      rw [offset, upper]
      dsimp only
      rw [Nat.add_zero, lower, ← word_append, first, second, none]
      simp [word]

/-! ## A block from the bytes carried and a piece -/

/-- The block in the state, aligned or not. -/
theorem GET_BLOCK_spec (short : rest.length < 16) {a b : List UInt8} (first : a.length = 8)
    (second : b.length = 8) (tail : List UInt8) :
    GET_BLOCK (carrying h rest) (a ++ (b ++ tail)) = (word (rest ++ (a ++ (b ++ tail))),
      word ((rest ++ (a ++ (b ++ tail))).drop 8), carrying h ((rest ++ (a ++ b)).drop 16)) := by
  have take : (a ++ (b ++ tail)).take 8 = a := List.take_left' first
  have next : ((a ++ (b ++ tail)).drop 8).take 8 = b := by
    rw [List.drop_left' first, List.take_left' second]
  unfold GET_BLOCK
  simp only [take, next, carrying_h, carrying_one, carrying_two, carrying_carry_bytes]
  by_cases none : rest.length = 0
  · obtain rfl : rest = [] := List.length_eq_zero_iff.mp none
    have all : (a ++ b).drop 16 = [] := List.drop_eq_nil_of_le (by rw [List.length_append]; omega)
    rw [if_pos none, List.nil_append, List.nil_append, word_of_le first.ge, List.drop_left' first,
      word_of_le second.ge, all]
  rw [if_neg none]
  by_cases half : rest.length = 8
  · have gone : rest.drop 8 = [] := List.drop_eq_nil_of_le half.le
    have kept : (rest ++ (a ++ b)).drop 16 = b := by
      rw [← List.append_assoc]
      exact List.drop_left' (by rw [List.length_append]; omega)
    have gone' : b.drop 8 = [] := List.drop_eq_nil_of_le second.le
    rw [if_pos half, word_of_le half.ge, List.drop_left' half, word_of_le first.ge, kept]
    rw [carrying, gone, gone', half, second]
  rw [if_neg half]
  by_cases few : rest.length < 8
  · have gone : rest.drop 8 = [] := List.drop_eq_nil_of_le (by omega)
    have carried : (a.drop (8 - rest.length)).length = rest.length := by
      rw [List.length_drop]
      omega
    have whole : (rest ++ (a ++ (b ++ tail))).drop 8 = a.drop (8 - rest.length) ++ b ++ tail := by
      rw [List.drop_append, gone, List.nil_append, List.drop_append_of_le_length (by omega),
        List.append_assoc]
    have kept : (rest ++ (a ++ b)).drop 16 = b.drop (8 - rest.length) := by
      rw [← List.append_assoc, List.drop_append, List.length_append]
      have before : (rest ++ a).drop 16 = [] :=
        List.drop_eq_nil_of_le (by rw [List.length_append]; omega)
      have offset : 16 - (rest.length + a.length) = 8 - rest.length := by omega
      rw [before, List.nil_append, offset]
    have kept' : (b.drop (8 - rest.length)).length = rest.length := by
      rw [List.length_drop]
      omega
    have gone' : (b.drop (8 - rest.length)).drop 8 = [] := List.drop_eq_nil_of_le (by omega)
    have lower : word (rest ++ (a ++ (b ++ tail))) = word rest ||| (word a <<< (rest.length * 8)) := by
      rw [← List.append_assoc, word_of_le (by rw [List.length_append]; omega), word_append, Nat.mul_comm]
    have upper : word (a.drop (8 - rest.length) ++ b ++ tail) =
        (word a >>> ((8 - rest.length) * 8)) ||| (word b <<< (rest.length * 8)) := by
      rw [word_of_le (by rw [List.length_append]; omega), word_append, carried, word_drop first.le,
        Nat.mul_comm, Nat.mul_comm 8]
    have left : word (b.drop (8 - rest.length)) = word b >>> ((8 - rest.length) * 8) := by
      rw [word_drop second.le, Nat.mul_comm]
    rw [if_pos few, whole, kept, lower, upper, carrying, kept', gone', left, gone]
  · rw [if_neg few]
    have carried : (rest.drop 8).length = rest.length - 8 := List.length_drop
    have carried' : (a.drop (16 - rest.length)).length = rest.length - 8 := by
      rw [List.length_drop]
      omega
    have whole : (rest ++ (a ++ (b ++ tail))).drop 8 = rest.drop 8 ++ a ++ (b ++ tail) := by
      rw [List.drop_append_of_le_length (by omega), List.append_assoc]
    have kept : (rest ++ (a ++ b)).drop 16 = a.drop (16 - rest.length) ++ b := by
      rw [List.drop_append, List.drop_eq_nil_of_le short.le, List.nil_append,
        List.drop_append_of_le_length (by omega)]
    have kept' : (a.drop (16 - rest.length) ++ b).drop 8 = b.drop (16 - rest.length) := by
      have before : (a.drop (16 - rest.length)).drop 8 = [] := List.drop_eq_nil_of_le (by omega)
      have offset : 8 - (rest.length - 8) = 16 - rest.length := by omega
      rw [List.drop_append, before, List.nil_append, carried', offset]
    have length : (a.drop (16 - rest.length) ++ b).length = rest.length := by
      rw [List.length_append]
      omega
    have upper : word (rest.drop 8 ++ a ++ (b ++ tail)) =
        word (rest.drop 8) ||| (word a <<< ((rest.length - 8) * 8)) := by
      rw [word_of_le (by rw [List.length_append]; omega), word_append, carried, Nat.mul_comm]
    have lower : word (a.drop (16 - rest.length) ++ b) =
        (word a >>> ((16 - rest.length) * 8)) ||| (word b <<< ((rest.length - 8) * 8)) := by
      rw [word_append, carried', word_drop first.le, Nat.mul_comm, Nat.mul_comm 8]
    have left : word (b.drop (16 - rest.length)) = word b >>> ((16 - rest.length) * 8) := by
      rw [word_drop second.le, Nat.mul_comm]
    rw [word_of_le (by omega), whole, kept, upper, carrying, kept', length, lower, left]

/-! ## A piece -/

theorem ingestBlocks_short (short : key.length < 16) (state : hash128_state_t) :
    ingestBlocks state key = (state, key) := by
  rw [ingestBlocks, if_neg (by omega)]

theorem ingestBlocks_block (short : rest.length < 16) (full : 16 ≤ key.length) :
    ingestBlocks (carrying h rest) key =
      ingestBlocks (carrying (blockStep h (rest ++ key)) ((rest ++ key.take 16).drop 16)) (key.drop 16) := by
  have first : (key.take 8).length = 8 := by
    rw [List.length_take]
    omega
  have second : ((key.drop 8).take 8).length = 8 := by
    rw [List.length_take, List.length_drop]
    omega
  have cut : key = key.take 8 ++ ((key.drop 8).take 8 ++ key.drop 16) := by
    have second := List.take_append_drop 8 (key.drop 8)
    rw [List.drop_drop] at second
    rw [second, List.take_append_drop]
  have block : key.take 16 = key.take 8 ++ (key.drop 8).take 8 := List.take_add (i := 8) (j := 8)
  have next : GET_BLOCK (carrying h rest) key = (word (rest ++ key), word ((rest ++ key).drop 8),
      carrying h ((rest ++ key.take 16).drop 16)) := by
    have spec := GET_BLOCK_spec (h := h) short first second (key.drop 16)
    rw [← cut, ← block] at spec
    exact spec
  rw [ingestBlocks, if_pos full, next]
  rfl

/-- The loop absorbs all blocks but a short end of the piece. -/
theorem ingestBlocks_spec (short : rest.length < 16) :
    ∃ front back, key = front ++ back ∧ back.length < 16 ∧
      ingestBlocks (carrying h rest) key = (absorbed h (rest ++ front), back) := by
  induction length : key.length using Nat.strongRecOn generalizing h rest key with
  | ind size ih =>
    by_cases full : 16 ≤ key.length
    · have left : ((rest ++ key.take 16).drop 16).length < 16 := by
        rw [List.length_drop, List.length_append, List.length_take]
        omega
      have smaller : (key.drop 16).length < size := by
        rw [List.length_drop]
        omega
      obtain ⟨front, back, parts, end_, result⟩ :=
        ih _ smaller (h := blockStep h (rest ++ key)) left rfl
      refine ⟨key.take 16 ++ front, back, ?_, end_, ?_⟩
      · rw [List.append_assoc, ← parts, List.take_append_drop]
      · have enough : 16 ≤ (rest ++ key.take 16).length := by
          rw [List.length_append, List.length_take]
          omega
        have same : blockStep h (rest ++ key.take 16 ++ front) = blockStep h (rest ++ key) := by
          rw [← blockStep_take, List.take_append_of_le_length enough, ← blockStep_take h (rest ++ key),
            List.take_append, List.take_append, List.take_take, Nat.min_eq_left (Nat.sub_le 16 _)]
        have fills : 16 ≤ (rest ++ key.take 16 ++ front).length := by
          rw [List.length_append]
          omega
        rw [ingestBlocks_block short full, result, ← List.append_assoc, absorbed_block fills, same,
          List.drop_append_of_le_length enough]
    · exact ⟨[], key, rfl, by omega, by
        rw [ingestBlocks_short (by omega), List.append_nil, absorbed_short short]⟩

/-- Full blocks are hashed, the rest is kept. -/
theorem PROCESS_BYTES_spec (short : rest.length < 16) {len : Nat} (few : len < 16)
    (enough : len ≤ key.length) :
    PROCESS_BYTES (carrying h rest) key len = absorbed h (rest ++ key.take len) := by
  rw [PROCESS_BYTES, carrying_carry_bytes]
  by_cases full : rest.length + len ≥ 16
  · have fill : ADD_BYTES (carrying h rest) key (16 - rest.length) =
        carrying h (rest ++ key.take (16 - rest.length)) := ADD_BYTES_spec (by omega) (by omega)
    have length : (rest ++ key.take (16 - rest.length)).length = 16 := by
      rw [List.length_append, List.length_take]
      omega
    have parts : key.take len =
        key.take (16 - rest.length) ++ (key.drop (16 - rest.length)).take (len - (16 - rest.length)) := by
      rw [← List.take_add]
      congr 1
      omega
    have others : len - (16 - rest.length) ≤ (key.drop (16 - rest.length)).length := by
      rw [List.length_drop]
      omega
    have added (h : ydb_uint16) : ADD_BYTES (carrying h []) (key.drop (16 - rest.length))
        (len - (16 - rest.length)) =
          carrying h ((key.drop (16 - rest.length)).take (len - (16 - rest.length))) :=
      ADD_BYTES_spec (by rw [List.length_nil]; omega) others
    have left : ((key.drop (16 - rest.length)).take (len - (16 - rest.length))).length < 16 := by
      rw [List.length_take]
      omega
    rw [if_pos full]
    dsimp only
    rw [fill, parts, ← List.append_assoc]
    generalize (key.drop (16 - rest.length)).take (len - (16 - rest.length)) = back at added left ⊢
    have same : blockStep h (rest ++ key.take (16 - rest.length) ++ back) =
        blockStep h (rest ++ key.take (16 - rest.length)) := by
      rw [← blockStep_take, List.take_left' length]
    rw [absorbed_block (by rw [List.length_append]; omega), same, List.drop_left' length,
      absorbed_short left]
    exact added _
  · have length : (rest ++ key.take len).length < 16 := by
      rw [List.length_append, List.length_take]
      omega
    rw [if_neg full, ADD_BYTES_spec (by omega) enough, absorbed_short length]

theorem PROCESS_BYTES_absorbed (h : ydb_uint16) (bytes : List UInt8) {len : Nat} (few : len < 16)
    (enough : len ≤ key.length) :
    PROCESS_BYTES (absorbed h bytes) key len = absorbed h (bytes ++ key.take len) := by
  rw [absorbed_append]
  exact PROCESS_BYTES_spec (absorbBlocks_rest_lt (by decide) h bytes) few enough

theorem ingestBlocks_absorbed (h : ydb_uint16) (bytes key : List UInt8) :
    ∃ front back, key = front ++ back ∧ back.length < 16 ∧
      ingestBlocks (absorbed h bytes) key = (absorbed h (bytes ++ front), back) := by
  obtain ⟨front, back, parts, short, result⟩ :=
    ingestBlocks_spec (h := (absorbBlocks blockStep 16 h bytes).1)
      (absorbBlocks_rest_lt (by decide) h bytes)
  exact ⟨front, back, parts, short, by rw [absorbed_append]; exact result⟩

/-- A piece is absorbed behind the bytes before it. -/
theorem ydb_mmrhash_128_ingest_absorbed (aligned : Bool) (h : ydb_uint16) (bytes : List UInt8)
    (address : Nat) (key : List UInt8) :
    ydb_mmrhash_128_ingest aligned (absorbed h bytes) address key = absorbed h (bytes ++ key) := by
  unfold ydb_mmrhash_128_ingest
  by_cases none : key.length = 0
  · rw [if_pos none, List.length_eq_zero_iff.mp none, List.append_nil]
  rw [if_neg none]
  dsimp only
  have skip : (if aligned then min ((8 - address % 8) % 8) key.length else 0) < 16 ∧
      (if aligned then min ((8 - address % 8) % 8) key.length else 0) ≤ key.length := by
    split
    · omega
    · omega
  generalize (if aligned then min ((8 - address % 8) % 8) key.length else 0) = i at skip ⊢
  have first : (if i > 0 then (PROCESS_BYTES (absorbed h bytes) key i, key.drop i)
      else (absorbed h bytes, key)) = (absorbed h (bytes ++ key.take i), key.drop i) := by
    by_cases some : i > 0
    · rw [if_pos some, PROCESS_BYTES_absorbed h bytes skip.1 skip.2]
    · obtain rfl : i = 0 := by omega
      rw [if_neg some, List.take_zero, List.append_nil, List.drop_zero]
  obtain ⟨front, back, parts, short, result⟩ :=
    ingestBlocks_absorbed h (bytes ++ key.take i) (key.drop i)
  have whole : bytes ++ key.take i ++ front ++ back = bytes ++ key := by
    rw [List.append_assoc, ← parts, List.append_assoc, List.take_append_drop]
  rw [first]
  dsimp only
  rw [result]
  dsimp only
  by_cases more : back.length > 0
  · rw [if_pos more, PROCESS_BYTES_absorbed h _ short Nat.le.refl, List.take_length, whole]
  · have gone : back = [] := List.length_eq_zero_iff.mp (by omega)
    rw [if_neg more, ← whole, gone, List.append_nil]

/-- Pieces, each with the address it is at, leave the state of the whole. -/
theorem ingest_pieces (aligned : Bool) (h : ydb_uint16) (bytes : List UInt8)
    (pieces : List (Nat × List UInt8)) :
    pieces.foldl (fun state piece => ydb_mmrhash_128_ingest aligned state piece.1 piece.2)
      (absorbed h bytes) = absorbed h (bytes ++ (pieces.map (·.2)).flatten) := by
  induction pieces generalizing bytes with
  | nil => simp
  | cons piece pieces ih =>
    rw [List.foldl_cons, ydb_mmrhash_128_ingest_absorbed, ih, List.map_cons,
      List.flatten_cons, List.append_assoc]

theorem HASH128_STATE_INIT_eq (seed : BitVec 64) :
    HASH128_STATE_INIT seed = absorbed ⟨seed, seed⟩ [] := by
  rw [absorbed_short (by decide)]
  rfl

/-! ## The hash at once -/

theorem shiftedByte_xor_word {tail : List UInt8} {base n : Nat} (within : base + n < tail.length) :
    shiftedByte (tail.getD (base + n) 0) n ^^^ word ((tail.drop base).take n) =
      word ((tail.drop base).take (n + 1)) := by
  have here : n < (tail.drop base).length := by
    rw [List.length_drop]
    omega
  have byte : tail.getD (base + n) 0 = (tail.drop base)[n] := by
    simp [within]
  have length : ((tail.drop base).take n).length = n := by
    rw [List.length_take]
    omega
  rw [byte, List.take_succ_eq_append_getElem here, word_append, length, shiftedByte_eq]
  apply BitVec.eq_of_getLsbD_eq
  intro j inside
  rw [BitVec.getLsbD_xor, BitVec.getLsbD_or, BitVec.getLsbD_shiftLeft]
  by_cases low : j < 8 * n
  · simp [low]
  · have clear : (word ((tail.drop base).take n)).getLsbD j = false := by
      rw [getLsbD_word, bitAt_of_le (by omega), Bool.and_false]
    simp [clear]

/-- The bytes that fall through the switch, as a word. -/
theorem tailWord_eq {tail : List UInt8} {base n : Nat} (within : base + n ≤ tail.length) (k : BitVec 64) :
    tailWord tail base n k = k ^^^ word ((tail.drop base).take n) := by
  induction n generalizing k with
  | zero => simp [tailWord, word]
  | succ n ih =>
    rw [tailWord, ih (by omega), BitVec.xor_assoc, shiftedByte_xor_word (by omega)]

/-- The turns of the loop are the blocks. -/
theorem murmurTurn_eq (h : ydb_uint16) (key : List UInt8) (i : Nat) :
    murmurTurn h (word ((key.drop (8 * (i * 2 + 0))).take 8)) (word ((key.drop (8 * (i * 2 + 1))).take 8)) =
      blockStep h ((key.drop (16 * i)).take 16) := by
  have first : 8 * (i * 2 + 0) = 16 * i := by omega
  have second : 8 * (i * 2 + 1) = 16 * i + 8 := by omega
  rw [blockStep_take, word_take, word_take, first, second, blockStep, List.drop_drop]
  rfl

/-- The state of a string, by the positions of its blocks. -/
theorem absorbed_eq (h : ydb_uint16) (key : List UInt8) :
    absorbed h key = carrying
      ((List.range (key.length / 16)).foldl (fun h i => murmurTurn h
        (word ((key.drop (8 * (i * 2 + 0))).take 8)) (word ((key.drop (8 * (i * 2 + 1))).take 8))) h)
      (key.drop (key.length / 16 * 16)) := by
  simp only [murmurTurn_eq]
  rw [absorbed, absorbBlocks_eq_foldl (by decide), Nat.mul_comm 16]

theorem size_eq {len : Nat} (small : len < 2 ^ 31) :
    (BitVec.ofNat 32 len).setWidth 64 = BitVec.ofInt 64 (int4Value len) := by
  have value : int4Value len = (len : Int) := int4Value_of_lt (by omega) (by omega)
  rw [value, BitVec.ofInt_natCast]
  apply BitVec.eq_of_toNat_eq
  rw [BitVec.toNat_setWidth, BitVec.toNat_ofNat, BitVec.toNat_ofNat]
  omega

/-- How both hashes end. -/
def mixed (h1 h2 size : BitVec 64) : ydb_uint16 :=
  let h1 := h1 ^^^ size
  let h2 := h2 ^^^ size
  let h1 := h1 + h2
  let h2 := h2 + h1
  let h1 := fmix64 h1
  let h2 := fmix64 h2
  let h1 := h1 + h2
  let h2 := h2 + h1
  ⟨h1, h2⟩

/-- The bytes carried at the end are integrated as words. -/
theorem ydb_mmrhash_128_result_carrying (h : ydb_uint16) (rest : List UInt8) (total_len : BitVec 32) :
    ydb_mmrhash_128_result (carrying h rest) total_len =
      mixed (if 1 ≤ rest.length then h.one ^^^ murmurFirst (word rest) else h.one)
        (if 9 ≤ rest.length then h.two ^^^ murmurSecond (word (rest.drop 8)) else h.two)
        (total_len.setWidth 64) := by
  change mixed (if rest.length ≠ 0 then INTEGRATE_K1 (word rest) h.one else h.one)
    (if rest.length ≠ 0 then if rest.length > 8 then INTEGRATE_K2 (word (rest.drop 8)) h.two else h.two
      else h.two) _ = _
  by_cases none : rest.length = 0
  · have few : ¬ 1 ≤ rest.length := by omega
    have few' : ¬ 9 ≤ rest.length := by omega
    rw [if_neg (not_not_intro none), if_neg (not_not_intro none), if_neg few, if_neg few']
  · have some : 1 ≤ rest.length := by omega
    rw [if_pos none, if_pos none, if_pos some]
    by_cases many : rest.length > 8
    · have upper : 9 ≤ rest.length := many
      rw [if_pos many, if_pos upper]
      rfl
    · have few : ¬ 9 ≤ rest.length := many
      rw [if_neg many, if_neg few]
      rfl

/-- The end of the hash of a string is the hash computed at once. -/
theorem ydb_mmrhash_128_result_absorbed {key : List UInt8} (small : key.length < 2 ^ 31) (seed : BitVec 32) :
    ydb_mmrhash_128_result (absorbed ⟨seed.setWidth 64, seed.setWidth 64⟩ key)
      (BitVec.ofNat 32 key.length) = MurmurHash3_x64_128 key seed := by
  have length : (key.drop (key.length / 16 * 16)).length = key.length % 16 := by
    rw [List.length_drop]
    omega
  have lower : tailWord (key.drop (key.length / 16 * 16)) 0 (min (key.length % 16) 8) 0 =
      word (key.drop (key.length / 16 * 16)) := by
    rw [tailWord_eq (by omega), List.drop_zero, Nat.min_comm, ← List.take_take, ← length,
      List.take_length, word_take]
    exact BitVec.zero_xor
  have upper (many : 9 ≤ key.length % 16) :
      tailWord (key.drop (key.length / 16 * 16)) 8 (key.length % 16 - 8) 0 =
        word ((key.drop (key.length / 16 * 16)).drop 8) := by
    have rest : ((key.drop (key.length / 16 * 16)).drop 8).length = key.length % 16 - 8 := by
      rw [List.length_drop, length]
    rw [tailWord_eq (by omega), ← rest, List.take_length]
    exact BitVec.zero_xor
  rw [absorbed_eq, ydb_mmrhash_128_result_carrying, length, size_eq small]
  unfold MurmurHash3_x64_128
  dsimp only
  rw [lower]
  by_cases many : 9 ≤ key.length % 16
  · rw [upper many]
    rfl
  · rw [if_neg many, if_neg many]
    rfl

end Ydb
