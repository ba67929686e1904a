import Ydb.JournalBuffer
import Mathlib.Tactic.Ring

/-!
# The places of a record in the journal buffer

Each piece is written behind the one before it, in the ring. A piece that is copied at once
ends before the end of the buffer, so both ways of copying keep the same invariant: the offset
is the place of the next address, and the ring holds the image of what was copied.
-/

namespace Ydb.JournalBuffer

open Lib jnl_record_type

variable {size freeaddr : Nat} {before : ByteMemory} {s : Copy} {image : List (Option UInt8)}

/-- The image is in the ring from `freeaddr` on, and the offset is the place behind it. -/
structure Copied (size freeaddr : Nat) (before : ByteMemory) (s : Copy) (image : List (Option UInt8)) :
    Prop where
  written : RingWritten size freeaddr before s.lcl_buff image
  free : s.lcl_free = (freeaddr + image.length) % size

/-! ## One piece -/

theorem JNL_PUTSTR_eq (src : ByteMemory) {len : Nat} (inside : s.lcl_free < size) (fits : len ≤ size) :
    JNL_PUTSTR s src len size =
      { lcl_buff := s.lcl_buff.ringStore size s.lcl_free (src.read 0 len)
        lcl_free := (s.lcl_free + len) % size } := by
  unfold JNL_PUTSTR memcpy
  by_cases straight : len ≤ size - s.lcl_free
  · have length : (src.read 0 len).length = len := ByteMemory.length_read
    have offset : (if len = size - s.lcl_free then 0 else s.lcl_free + len) = (s.lcl_free + len) % size := by
      rw [ring_add inside fits]
      split <;> split <;> omega
    have below : s.lcl_free + (src.read 0 len).length ≤ size := by omega
    simp only [if_pos straight]
    rw [ByteMemory.store_eq_ringStore below, offset]
  · have parts : src.read 0 len =
        src.read 0 (size - s.lcl_free) ++
          ByteMemory.read (fun i => src (size - s.lcl_free + i)) 0 (len - (size - s.lcl_free)) := by
      have split : len = size - s.lcl_free + (len - (size - s.lcl_free)) := by omega
      have shift : ByteMemory.read (fun i => src (size - s.lcl_free + i)) 0 (len - (size - s.lcl_free)) =
          src.read (0 + (size - s.lcl_free)) (len - (size - s.lcl_free)) := by
        apply ByteMemory.read_congr
        intro i less
        rw [Nat.zero_add, Nat.zero_add]
      rw [shift, ← ByteMemory.read_add, ← split]
    have first : (src.read 0 (size - s.lcl_free)).length = size - s.lcl_free := ByteMemory.length_read
    have second : (ByteMemory.read (fun i => src (size - s.lcl_free + i)) 0
        (len - (size - s.lcl_free))).length = len - (size - s.lcl_free) := ByteMemory.length_read
    have offset : len - (size - s.lcl_free) = (s.lcl_free + len) % size := by
      rw [ring_add inside fits, if_neg (by omega)]
      omega
    have atEnd : s.lcl_free + (src.read 0 (size - s.lcl_free)).length = size := by omega
    have total : (src.read 0 (size - s.lcl_free)).length +
        (ByteMemory.read (fun i => src (size - s.lcl_free + i)) 0 (len - (size - s.lcl_free))).length ≤ size := by
      omega
    simp only [if_neg straight]
    rw [ByteMemory.store_store_eq_ringStore atEnd total (by omega), ← parts, offset]

theorem putNowrap_eq (src : ByteMemory) {len : Nat} (fits : s.lcl_free + len ≤ size) :
    putNowrap s src len =
      { lcl_buff := s.lcl_buff.ringStore size s.lcl_free (src.read 0 len)
        lcl_free := s.lcl_free + len } := by
  have below : s.lcl_free + (src.read 0 len).length ≤ size := by
    rw [ByteMemory.length_read]
    exact fits
  rw [putNowrap, memcpy, ByteMemory.store_eq_ringStore below]

namespace Copied

/-- Nothing is copied yet. -/
theorem start (free : s.lcl_free = freeaddr % size) : Copied size freeaddr s.lcl_buff s [] where
  written := RingWritten.nil size freeaddr s.lcl_buff
  free := free

/-- The next piece, in the ring. -/
theorem ringStore (copied : Copied size freeaddr before s image) (src : ByteMemory) {len : Nat}
    (fits : image.length + len ≤ size) :
    Copied size freeaddr before
      { lcl_buff := s.lcl_buff.ringStore size s.lcl_free (src.read 0 len)
        lcl_free := (s.lcl_free + len) % size } (image ++ (src.read 0 len).map some) where
  written := by
    have length : (src.read 0 len).length = len := ByteMemory.length_read
    rw [copied.free, ByteMemory.ringStore_mod]
    exact copied.written.push _ (by omega)
  free := by
    rw [copied.free, Nat.mod_add_mod, List.length_append, List.length_map, ByteMemory.length_read,
      Nat.add_assoc]

theorem putstr (copied : Copied size freeaddr before s image) (src : ByteMemory) {len : Nat}
    (some : 0 < size) (fits : image.length + len ≤ size) :
    Copied size freeaddr before (JNL_PUTSTR s src len size) (image ++ (src.read 0 len).map .some) := by
  have inside : s.lcl_free < size := copied.free ▸ Nat.mod_lt _ some
  rw [JNL_PUTSTR_eq src inside (by omega)]
  exact copied.ringStore src fits

theorem nowrap (copied : Copied size freeaddr before s image) (src : ByteMemory) {len : Nat}
    (fits : image.length + len ≤ size) (below : s.lcl_free + len < size) :
    Copied size freeaddr before (putNowrap s src len) (image ++ (src.read 0 len).map some) := by
  rw [putNowrap_eq src (Nat.le_of_lt below)]
  have copied := copied.ringStore src fits
  rw [Nat.mod_eq_of_lt below] at copied
  exact copied

end Copied

/-! ## A record in one piece -/

theorem putRecord_eq (src : ByteMemory) {rlen : Nat} (inside : s.lcl_free < size) (fits : rlen ≤ size) :
    putRecord s src rlen size (decide (s.lcl_free + rlen ≤ size)) =
      { lcl_buff := s.lcl_buff.ringStore size s.lcl_free (src.read 0 rlen)
        lcl_free := (s.lcl_free + rlen) % size } := by
  unfold putRecord
  by_cases straight : s.lcl_free + rlen ≤ size
  · simp only [decide_eq_true straight, if_true]
    rw [putNowrap_eq src straight, wrapAtEnd, ring_add inside fits]
    by_cases atEnd : size = s.lcl_free + rlen
    · rw [if_pos atEnd, if_neg (by omega)]
      congr 1
      omega
    · rw [if_neg atEnd, if_pos (by omega)]
  · simp only [decide_eq_false straight, Bool.false_eq_true, if_false]
    exact JNL_PUTSTR_eq src inside fits

theorem putRecord_copied (src : ByteMemory) {rlen : Nat} (free : s.lcl_free = freeaddr % size)
    (some : 0 < size) (fits : rlen ≤ size) :
    Copied size freeaddr s.lcl_buff
      (putRecord s src rlen size (decide (s.lcl_free + rlen ≤ size))) ((src.read 0 rlen).map .some) := by
  have inside : s.lcl_free < size := free ▸ Nat.mod_lt _ some
  have none : ([] : List (Option UInt8)).length + rlen ≤ size := by
    rw [List.length_nil, Nat.zero_add]
    exact fits
  rw [putRecord_eq src inside fits]
  exact (Copied.start free).ringStore src none

/-! ## The suffix -/

@[simp] theorem length_jrec_suffix (backptr : Nat) : (jrec_suffix backptr).length = JREC_SUFFIX_SIZE := rfl

theorem length_suffixedImage {rlen : Nat} {pieces : List UInt8}
    (room : pieces.length + JREC_SUFFIX_SIZE ≤ rlen) : (suffixedImage rlen pieces).length = rlen := by
  simp only [suffixedImage, List.length_append, List.length_map, List.length_replicate, length_jrec_suffix]
  omega

/-- The suffix goes in the last four places of the record. -/
theorem suffix_copied {pieces : List UInt8} {rlen : Nat} (at' : Nat)
    (written : RingWritten size freeaddr before s.lcl_buff (pieces.map some))
    (room : pieces.length + JREC_SUFFIX_SIZE ≤ rlen) (fits : rlen ≤ size)
    (place : at' = (freeaddr + (rlen - JREC_SUFFIX_SIZE)) % size) (below : at' + JREC_SUFFIX_SIZE ≤ size) :
    Copied size freeaddr before
      (wrapAtEnd { lcl_buff := s.lcl_buff.store at' (jrec_suffix rlen), lcl_free := at' + JREC_SUFFIX_SIZE }
        size) (suffixedImage rlen pieces) := by
  have four : JREC_SUFFIX_SIZE = 4 := rfl
  have suffix : (jrec_suffix rlen).length = JREC_SUFFIX_SIZE := length_jrec_suffix rlen
  have gapLength : (pieces.map some ++
      List.replicate (rlen - (pieces.length + JREC_SUFFIX_SIZE)) (none : Option UInt8)).length =
      rlen - JREC_SUFFIX_SIZE := by
    simp only [List.length_append, List.length_map, List.length_replicate]
    omega
  have stored : RingWritten size freeaddr before (s.lcl_buff.store at' (jrec_suffix rlen))
      (suffixedImage rlen pieces) := by
    have skipped := written.skip (rlen - (pieces.length + JREC_SUFFIX_SIZE))
    have pushed := skipped.push (jrec_suffix rlen) (by omega)
    rw [gapLength, ← ByteMemory.ringStore_mod, ← place, ← ByteMemory.store_eq_ringStore (by omega)] at pushed
    exact pushed
  have free : (freeaddr + rlen) % size = (at' + JREC_SUFFIX_SIZE) % size := by
    rw [place, Nat.mod_add_mod]
    congr 1
    omega
  constructor
  · unfold wrapAtEnd
    split <;> exact stored
  · rw [length_suffixedImage room, free]
    unfold wrapAtEnd
    by_cases atEnd : size = at' + JREC_SUFFIX_SIZE
    · rw [if_pos atEnd, ← atEnd, Nat.mod_self]
    · rw [if_neg atEnd, Nat.mod_eq_of_lt (by omega)]

/-! ## Block records -/

theorem ROUND_UP2_eight (value : Nat) :
    8 ∣ ROUND_UP2 value JNL_REC_START_BNDRY ∧ value ≤ ROUND_UP2 value JNL_REC_START_BNDRY ∧
      ROUND_UP2 value JNL_REC_START_BNDRY < value + 8 := by
  have eight : JNL_REC_START_BNDRY = 8 := rfl
  unfold ROUND_UP2
  rw [eight]
  omega

/-- A block is copied around the end. -/
theorem putBlock_copied {is_aimg : Bool} {jnl_rec blk_ptr in_str : ByteMemory} {rlen : Nat}
    (free : s.lcl_free = freeaddr % size) (some : 0 < size) (fits : rlen ≤ size)
    (room : (blockPieces is_aimg jnl_rec blk_ptr in_str).length + JREC_SUFFIX_SIZE ≤ rlen) :
    Copied size freeaddr s.lcl_buff
      (putBlock s is_aimg jnl_rec blk_ptr in_str size (decide (s.lcl_free + rlen ≤ size)))
      ((blockPieces is_aimg jnl_rec blk_ptr in_str).map .some) := by
  have four : JREC_SUFFIX_SIZE = 4 := rfl
  have length : (blockPieces is_aimg jnl_rec blk_ptr in_str).length =
      FIXED_BLK_RECLEN + bsiz jnl_rec + if is_aimg then cmdstrlen jnl_rec else 0 := by
    unfold blockPieces
    cases is_aimg <;> simp [Nat.add_assoc]
  have begin : Copied size freeaddr s.lcl_buff s [] := Copied.start free
  have pieces : (blockPieces is_aimg jnl_rec blk_ptr in_str).map Option.some =
      ([] ++ (jnl_rec.read 0 FIXED_BLK_RECLEN).map Option.some) ++ (blk_ptr.read 0 (bsiz jnl_rec)).map .some ++
        if is_aimg then (in_str.read 0 (cmdstrlen jnl_rec)).map .some else [] := by
    unfold blockPieces
    cases is_aimg <;> simp
  rw [pieces]
  unfold putBlock
  have size1 : ([] : List (Option UInt8)).length + FIXED_BLK_RECLEN ≤ size := by
    rw [List.length_nil]
    omega
  have size2 : ([] ++ (jnl_rec.read 0 FIXED_BLK_RECLEN).map Option.some).length + bsiz jnl_rec ≤ size := by
    rw [List.nil_append, List.length_map, ByteMemory.length_read]
    omega
  have size3 : is_aimg = true → ([] ++ (jnl_rec.read 0 FIXED_BLK_RECLEN).map Option.some ++
      (blk_ptr.read 0 (bsiz jnl_rec)).map Option.some).length + cmdstrlen jnl_rec ≤ size := by
    intro aimg
    rw [if_pos aimg] at length
    rw [List.nil_append, List.length_append, List.length_map, List.length_map, ByteMemory.length_read,
      ByteMemory.length_read]
    omega
  by_cases straight : s.lcl_free + rlen ≤ size
  · simp only [decide_eq_true straight, if_true]
    have first := begin.nowrap jnl_rec size1 (by omega)
    have second := first.nowrap blk_ptr size2 (by simp only [putNowrap]; omega)
    cases is_aimg with
    | false =>
      rw [if_neg Bool.false_ne_true, if_neg Bool.false_ne_true, List.append_nil]
      exact second
    | true =>
      rw [if_pos rfl] at length
      exact second.nowrap in_str (size3 rfl) (by simp only [putNowrap]; omega)
  · simp only [decide_eq_false straight, Bool.false_eq_true, if_false]
    have first := begin.putstr jnl_rec some size1
    have second := first.putstr blk_ptr some size2
    cases is_aimg with
    | false =>
      rw [if_neg Bool.false_ne_true, if_neg Bool.false_ne_true, List.append_nil]
      exact second
    | true => exact second.putstr in_str some (size3 rfl)

/-- Records begin at a multiple of eight, so the boundary in the buffer is that of the record. -/
theorem putBlockSuffix_copied {pieces : List UInt8} {rlen : Nat}
    (copied : Copied size freeaddr before s (pieces.map some)) (some : 0 < size) (whole : 8 ∣ size)
    (aligned : 8 ∣ freeaddr)
    (length : rlen = ROUND_UP2 (pieces.length + JREC_SUFFIX_SIZE) JNL_REC_START_BNDRY) (fits : rlen ≤ size) :
    Copied size freeaddr before (putBlockSuffix s rlen size) (suffixedImage rlen pieces) := by
  have four : JREC_SUFFIX_SIZE = 4 := rfl
  have eight : JNL_REC_START_BNDRY = 8 := rfl
  obtain ⟨multiple, above, below⟩ := ROUND_UP2_eight (pieces.length + JREC_SUFFIX_SIZE)
  rw [← length] at multiple above below
  obtain ⟨multiple', above', below'⟩ := ROUND_UP2_eight (s.lcl_free + JREC_SUFFIX_SIZE)
  have free : s.lcl_free = (freeaddr + pieces.length) % size := by
    rw [copied.free, List.length_map]
  have inside : s.lcl_free < size := free ▸ Nat.mod_lt _ some
  have turn := Nat.div_add_mod (freeaddr + pieces.length) size
  rw [← free] at turn
  have turns : 8 ∣ size * ((freeaddr + pieces.length) / size) := Dvd.dvd.mul_right whole _
  have boundary : ROUND_UP2 (s.lcl_free + JREC_SUFFIX_SIZE) JNL_REC_START_BNDRY =
      s.lcl_free + (rlen - pieces.length) := by
    omega
  -- one turn back from the address of the suffix
  have place : (freeaddr + (rlen - JREC_SUFFIX_SIZE)) % size =
      (s.lcl_free + (rlen - pieces.length) - JREC_SUFFIX_SIZE) % size := by
    have sum : freeaddr + (rlen - JREC_SUFFIX_SIZE) =
        s.lcl_free + (rlen - pieces.length) - JREC_SUFFIX_SIZE +
          size * ((freeaddr + pieces.length) / size) := by
      omega
    rw [sum, Nat.add_mul_mod_self_left]
  unfold putBlockSuffix
  simp only [boundary]
  by_cases over' : size < s.lcl_free + (rlen - pieces.length)
  · have next : s.lcl_free + (rlen - pieces.length) = size + 8 := by omega
    have small : s.lcl_free + (rlen - pieces.length) - JREC_SUFFIX_SIZE = 4 + size := by omega
    rw [if_pos over', eight]
    refine suffix_copied 4 copied.written (by omega) fits ?_ (by omega)
    rw [place, small, Nat.add_mod_right, Nat.mod_eq_of_lt (by omega)]
  · have back : s.lcl_free + (rlen - pieces.length) - JREC_SUFFIX_SIZE + JREC_SUFFIX_SIZE =
        s.lcl_free + (rlen - pieces.length) := by
      omega
    have copied' := suffix_copied (s.lcl_free + (rlen - pieces.length) - JREC_SUFFIX_SIZE)
      copied.written (by omega) fits (by rw [place, Nat.mod_eq_of_lt (by omega)]) (by omega)
    rw [back] at copied'
    rw [if_neg over']
    exact copied'

/-! ## Alignment records -/

/-- After the fixed part and the filler the offset is that of the suffix. -/
theorem putAlign_copied (jrec_align : ByteMemory) {rlen : Nat} (free : s.lcl_free = freeaddr % size)
    (some : 0 < size) (whole : 8 ∣ size) (aligned : 8 ∣ freeaddr) (multiple : 8 ∣ rlen)
    (least : MIN_ALIGN_RECLEN ≤ rlen) (fits : rlen ≤ size) :
    RingWritten size freeaddr s.lcl_buff
        (putAlign s jrec_align rlen size (decide (s.lcl_free + rlen ≤ size))).lcl_buff
        ((jrec_align.read 0 FIXED_ALIGN_RECLEN).map .some) ∧
      (putAlign s jrec_align rlen size (decide (s.lcl_free + rlen ≤ size))).lcl_free =
        (freeaddr + (rlen - JREC_SUFFIX_SIZE)) % size ∧
      (putAlign s jrec_align rlen size (decide (s.lcl_free + rlen ≤ size))).lcl_free + JREC_SUFFIX_SIZE ≤
        size := by
  have four : JREC_SUFFIX_SIZE = 4 := rfl
  have twelve : FIXED_ALIGN_RECLEN = 12 := rfl
  have sixteen : MIN_ALIGN_RECLEN = 16 := rfl
  have inside : s.lcl_free < size := free ▸ Nat.mod_lt _ some
  have whole' : 8 ∣ s.lcl_free := by
    rw [free]
    exact (Nat.dvd_mod_iff whole).mpr aligned
  have begin : Copied size freeaddr s.lcl_buff s [] := Copied.start free
  have piece : ([] : List (Option UInt8)).length + FIXED_ALIGN_RECLEN ≤ size := by
    rw [List.length_nil]
    omega
  have goal : (freeaddr + (rlen - JREC_SUFFIX_SIZE)) % size =
      if s.lcl_free + (rlen - JREC_SUFFIX_SIZE) < size then s.lcl_free + (rlen - JREC_SUFFIX_SIZE)
      else s.lcl_free + (rlen - JREC_SUFFIX_SIZE) - size := by
    rw [← Nat.mod_add_mod, ← free, ring_add inside (by omega)]
  unfold putAlign
  by_cases straight : s.lcl_free + rlen ≤ size
  · have copied := begin.nowrap jrec_align piece (by omega)
    simp only [decide_eq_true straight, if_true]
    rw [goal, if_pos (by omega)]
    exact ⟨copied.written, by omega, by omega⟩
  · have copied := begin.putstr jrec_align some piece
    have free' : (JNL_PUTSTR s jrec_align FIXED_ALIGN_RECLEN size).lcl_free =
        if s.lcl_free + FIXED_ALIGN_RECLEN < size then s.lcl_free + FIXED_ALIGN_RECLEN
        else s.lcl_free + FIXED_ALIGN_RECLEN - size := by
      rw [JNL_PUTSTR_eq jrec_align inside (by omega), ring_add inside (by omega)]
    simp only [decide_eq_false straight, Bool.false_eq_true, if_false]
    rw [goal, free']
    refine ⟨copied.written, ?_, ?_⟩
    · split <;> split <;> split <;> omega
    · split <;> split <;> omega

/-! ## The whole record -/

theorem jnl_buffer.eight_dvd_block (jb : jnl_buffer) : 8 ∣ jb.fs_block_size := by
  obtain ⟨m, power⟩ := jb.fs_block_power
  have eight : (2 : Nat) ^ 9 = 8 * 64 := rfl
  rw [power, Nat.pow_add, eight, Nat.mul_assoc]
  exact Nat.dvd_mul_right 8 _

theorem jnl_buffer.block_ge (jb : jnl_buffer) : 512 ≤ jb.fs_block_size := by
  obtain ⟨m, power⟩ := jb.fs_block_power
  rw [power]
  exact Nat.pow_le_pow_right Nat.two_pos (Nat.le_add_right 9 m)

theorem jnl_buffer.eight_dvd (jb : jnl_buffer) : 8 ∣ jb.size :=
  Nat.dvd_trans jb.eight_dvd_block jb.fs_block_dvd

/-- The pieces and the suffix of a block record fit in its length. -/
theorem blockPieces_room {is_aimg : Bool} {jnl_rec blk_ptr in_str : ByteMemory}
    (length : forwptr jnl_rec =
      ROUND_UP2 ((blockPieces is_aimg jnl_rec blk_ptr in_str).length + JREC_SUFFIX_SIZE) JNL_REC_START_BNDRY) :
    (blockPieces is_aimg jnl_rec blk_ptr in_str).length + JREC_SUFFIX_SIZE ≤ forwptr jnl_rec := by
  rw [length]
  exact (ROUND_UP2_eight _).2.1

theorem length_pblk {jnl_rec : ByteMemory} (blk_ptr in_str : ByteMemory)
    (length : RecordLength JRT_PBLK jnl_rec) : forwptr jnl_rec =
      ROUND_UP2 ((blockPieces false jnl_rec blk_ptr in_str).length + JREC_SUFFIX_SIZE) JNL_REC_START_BNDRY := by
  have pieces : (blockPieces false jnl_rec blk_ptr in_str).length = FIXED_BLK_RECLEN + bsiz jnl_rec := by
    simp [blockPieces]
  rw [pieces]
  exact length.2

theorem length_aimg {jnl_rec : ByteMemory} (blk_ptr in_str : ByteMemory)
    (length : RecordLength JRT_AIMG jnl_rec) : forwptr jnl_rec =
      ROUND_UP2 ((blockPieces true jnl_rec blk_ptr in_str).length + JREC_SUFFIX_SIZE) JNL_REC_START_BNDRY := by
  have pieces : (blockPieces true jnl_rec blk_ptr in_str).length =
      FIXED_BLK_RECLEN + bsiz jnl_rec + cmdstrlen jnl_rec := by
    simp [blockPieces, Nat.add_assoc]
  rw [pieces]
  exact length.2

/-- Every record but an `EOF` is copied to its places and nothing else is written. -/
theorem jnl_write_copied (jb : jnl_buffer) {rectype : jnl_record_type} {jnl_rec parm1 in_str : ByteMemory}
    (free : s.lcl_free = freeaddr % jb.size) (aligned : 8 ∣ freeaddr) (length : RecordLength rectype jnl_rec)
    (fits : forwptr jnl_rec ≤ jb.size) (goesOn : rectype ≠ JRT_EOF) :
    Copied jb.size freeaddr s.lcl_buff (jnl_write jb s rectype jnl_rec parm1 in_str)
      (recordImage rectype jnl_rec parm1 in_str) := by
  have whole := jb.eight_dvd
  have fixed : Copied jb.size freeaddr s.lcl_buff
      (putRecord s jnl_rec (forwptr jnl_rec) jb.size (decide (s.lcl_free + forwptr jnl_rec ≤ jb.size)))
      ((jnl_rec.read 0 (forwptr jnl_rec)).map some) :=
    putRecord_copied jnl_rec free jb.size_pos fits
  have logical : Copied jb.size freeaddr s.lcl_buff
      (putRecord s parm1 (forwptr jnl_rec) jb.size (decide (s.lcl_free + forwptr jnl_rec ≤ jb.size)))
      ((parm1.read 0 (forwptr jnl_rec)).map some) :=
    putRecord_copied parm1 free jb.size_pos fits
  cases rectype with
  | JRT_EOF => exact absurd rfl goesOn
  | JRT_PINI | JRT_PFIN | JRT_ZTCOM | JRT_EPOCH | JRT_TCOM | JRT_NULL | JRT_INCTN | JRT_TRIPLE
    | JRT_HISTREC | JRT_TRUNC => exact fixed
  | JRT_PBLK =>
    have length' := length_pblk parm1 in_str length
    have pieces : Copied jb.size freeaddr s.lcl_buff
        (putBlock s false jnl_rec parm1 in_str jb.size (decide (s.lcl_free + forwptr jnl_rec ≤ jb.size)))
        ((blockPieces false jnl_rec parm1 in_str).map some) :=
      putBlock_copied free jb.size_pos fits (blockPieces_room length')
    exact putBlockSuffix_copied pieces jb.size_pos whole aligned length' fits
  | JRT_AIMG =>
    have length' := length_aimg parm1 in_str length
    have pieces : Copied jb.size freeaddr s.lcl_buff
        (putBlock s true jnl_rec parm1 in_str jb.size (decide (s.lcl_free + forwptr jnl_rec ≤ jb.size)))
        ((blockPieces true jnl_rec parm1 in_str).map some) :=
      putBlock_copied free jb.size_pos fits (blockPieces_room length')
    exact putBlockSuffix_copied pieces jb.size_pos whole aligned length' fits
  | JRT_ALIGN =>
    obtain ⟨multiple, least⟩ := length
    have least : MIN_ALIGN_RECLEN ≤ forwptr jnl_rec := least
    have room : (jnl_rec.read 0 FIXED_ALIGN_RECLEN).length + JREC_SUFFIX_SIZE ≤ forwptr jnl_rec := by
      rw [ByteMemory.length_read]
      exact least
    obtain ⟨written, place, below⟩ := putAlign_copied jnl_rec free jb.size_pos whole aligned
      multiple least fits
    exact suffix_copied _ written room fits place below
  | _ => exact logical

/-! ## The padding behind an `EOF` -/

section Padding

variable {block : Nat}

theorem ROUND_UP2_bounds (value : Nat) (some : 0 < block) :
    value ≤ ROUND_UP2 value block ∧ ROUND_UP2 value block < value + block := by
  unfold ROUND_UP2
  have division := Nat.div_add_mod (value + (block - 1)) block
  have rest := Nat.mod_lt (value + (block - 1)) some
  rw [Nat.mul_comm] at division
  omega

/-- The boundary is not behind the end of the buffer. -/
theorem ROUND_UP2_le_of_dvd {value : Nat} (some : 0 < block) (whole : block ∣ size) (inside : value ≤ size) :
    ROUND_UP2 value block ≤ size := by
  obtain ⟨count, rfl⟩ := whole
  have quotient : (value + (block - 1)) / block ≤ count := by
    apply Nat.le_of_lt_succ
    rw [Nat.div_lt_iff_lt_mul some, Nat.succ_mul, Nat.mul_comm count]
    omega
  rw [ROUND_UP2, Nat.mul_comm block]
  exact Nat.mul_le_mul_right block quotient

theorem padEof_free (s : Copy) (block : Nat) : (padEof s block).lcl_free = s.lcl_free := by
  unfold padEof
  dsimp only
  split <;> rfl

theorem padEof_buff (s : Copy) (block a : Nat) (some : 0 < block) :
    (padEof s block).lcl_buff a =
      if s.lcl_free ≤ a ∧ a < ROUND_UP2 s.lcl_free block then 0 else s.lcl_buff a := by
  obtain ⟨above, _⟩ := ROUND_UP2_bounds s.lcl_free some
  have upto : s.lcl_free + (ROUND_UP2 s.lcl_free block - s.lcl_free) = ROUND_UP2 s.lcl_free block := by omega
  unfold padEof
  by_cases none : ROUND_UP2 s.lcl_free block - s.lcl_free = 0
  · simp only [none, ne_eq, not_true_eq_false, if_false]
    rw [if_neg (by omega)]
  · simp only [ne_eq, none, not_false_eq_true, if_true]
    rw [ByteMemory.store, List.length_replicate, upto]
    split
    · rw [List.getD_eq_getElem?_getD, List.getElem?_replicate]
      split <;> rfl
    · rfl

end Padding

/-- What is in the buffer after a record is written. -/
structure Placed (jb : jnl_buffer) (freeaddr : Nat) (lcl_buff : ByteMemory) (after : Copy)
    (rectype : jnl_record_type) (jnl_rec parm1 in_str : ByteMemory) : Prop where
  placed : ∀ k b, (recordImage rectype jnl_rec parm1 in_str)[k]? = some (some b) →
    after.lcl_buff ((freeaddr + k) % jb.size) = b
  elsewhere : ∀ a, RingApart jb.size freeaddr (forwptr jnl_rec) a →
    after.lcl_buff a =
      if rectype = JRT_EOF ∧ after.lcl_free ≤ a ∧ a < ROUND_UP2 after.lcl_free jb.fs_block_size then 0
      else lcl_buff a
  free : after.lcl_free = (freeaddr + forwptr jnl_rec) % jb.size

theorem length_recordImage {rectype : jnl_record_type} {jnl_rec parm1 in_str : ByteMemory}
    (length : RecordLength rectype jnl_rec) :
    (recordImage rectype jnl_rec parm1 in_str).length = forwptr jnl_rec := by
  have fixed : ((jnl_rec.read 0 (forwptr jnl_rec)).map some).length = forwptr jnl_rec := by simp
  have logical : ((parm1.read 0 (forwptr jnl_rec)).map some).length = forwptr jnl_rec := by simp
  cases rectype with
  | JRT_PINI | JRT_PFIN | JRT_ZTCOM | JRT_EPOCH | JRT_TCOM | JRT_NULL | JRT_INCTN | JRT_TRIPLE
    | JRT_HISTREC | JRT_TRUNC | JRT_EOF => exact fixed
  | JRT_PBLK => exact length_suffixedImage (blockPieces_room (length_pblk parm1 in_str length))
  | JRT_AIMG => exact length_suffixedImage (blockPieces_room (length_aimg parm1 in_str length))
  | JRT_ALIGN =>
    apply length_suffixedImage
    rw [ByteMemory.length_read]
    exact length.2
  | _ => exact logical

/-- The padding behind the last record stays clear of it, in a buffer of two blocks or more. -/
theorem padEof_placed (jb : jnl_buffer) {jnl_rec parm1 in_str : ByteMemory}
    (free : s.lcl_free = freeaddr % jb.size) (length : forwptr jnl_rec = EOF_RECLEN)
    (blocks : jb.fs_block_size < jb.size) :
    Placed jb freeaddr s.lcl_buff (jnl_write jb s JRT_EOF jnl_rec parm1 in_str) JRT_EOF jnl_rec parm1
      in_str := by
  have block := jb.block_ge
  have forty : EOF_RECLEN = 40 := rfl
  have fits : forwptr jnl_rec ≤ jb.size := by omega
  obtain ⟨count, whole⟩ := jb.fs_block_dvd
  have twice : 2 * jb.fs_block_size ≤ jb.size := by
    have more : 2 ≤ count := by
      by_contra few
      have one : count ≤ 1 := by omega
      have product := Nat.mul_le_mul_left jb.fs_block_size one
      omega
    rw [whole, Nat.mul_comm 2]
    exact Nat.mul_le_mul_left _ more
  have copied := putRecord_copied jnl_rec free jb.size_pos fits
  generalize written : putRecord s jnl_rec (forwptr jnl_rec) jb.size
    (decide (s.lcl_free + forwptr jnl_rec ≤ jb.size)) = t at copied
  have after : jnl_write jb s JRT_EOF jnl_rec parm1 in_str = padEof t jb.fs_block_size := by
    rw [← written]
    rfl
  have image : recordImage JRT_EOF jnl_rec parm1 in_str = (jnl_rec.read 0 (forwptr jnl_rec)).map some := rfl
  have imageLength : ((jnl_rec.read 0 (forwptr jnl_rec)).map some).length = forwptr jnl_rec := by simp
  have free' : t.lcl_free = (freeaddr + forwptr jnl_rec) % jb.size := imageLength ▸ copied.free
  have inside : t.lcl_free < jb.size := free' ▸ Nat.mod_lt _ jb.size_pos
  obtain ⟨above, below⟩ := ROUND_UP2_bounds t.lcl_free (by omega : 0 < jb.fs_block_size)
  have last := ROUND_UP2_le_of_dvd (by omega : 0 < jb.fs_block_size) jb.fs_block_dvd (Nat.le_of_lt inside)
  -- a place of the padding is less than a turn behind the start of the record
  have clear : ∀ k < forwptr jnl_rec, ¬ (t.lcl_free ≤ (freeaddr + k) % jb.size ∧
      (freeaddr + k) % jb.size < ROUND_UP2 t.lcl_free jb.fs_block_size) := by
    intro k less ⟨low, high⟩
    obtain ⟨i, sum⟩ := Nat.exists_eq_add_of_le low
    have place : (freeaddr + (forwptr jnl_rec + i)) % jb.size = t.lcl_free + i := by
      rw [← Nat.add_assoc, ← Nat.mod_add_mod, ← free', Nat.mod_eq_of_lt (by omega)]
    have apart : (freeaddr + k) % jb.size ≠ (freeaddr + (forwptr jnl_rec + i)) % jb.size :=
      RingWritten.places_ne (by omega) (by omega) (by omega)
    exact apart (sum.trans place.symm)
  rw [after]
  constructor
  · intro k b found
    rw [image] at found
    obtain ⟨less, _⟩ := List.getElem?_eq_some_iff.mp found
    rw [imageLength] at less
    rw [padEof_buff _ _ _ (by omega), if_neg (clear k less)]
    exact copied.written.written k b found
  · intro a apart
    rw [padEof_buff _ _ _ (by omega), padEof_free, copied.written.apart a (by rwa [imageLength])]
    simp only [true_and]
  · rw [padEof_free]
    exact free'

/-- Every byte of a record goes to its place in the ring, and nothing else is written. -/
theorem jnl_write_places (jb : jnl_buffer) (rectype : jnl_record_type) (jnl_rec parm1 in_str : ByteMemory)
    (lcl_buff : ByteMemory) (freeaddr lcl_free : Nat) (aligned : 8 ∣ lcl_free)
    (free : lcl_free = freeaddr % jb.size) (length : RecordLength rectype jnl_rec)
    (fits : forwptr jnl_rec ≤ jb.size) (blocks : rectype = JRT_EOF → jb.fs_block_size < jb.size) :
    Placed jb freeaddr lcl_buff
      (jnl_write jb { lcl_buff := lcl_buff, lcl_free := lcl_free } rectype jnl_rec parm1 in_str) rectype jnl_rec
      parm1 in_str := by
  have aligned' : 8 ∣ freeaddr := by
    rw [free] at aligned
    exact (Nat.dvd_mod_iff jb.eight_dvd).mp aligned
  by_cases last : rectype = JRT_EOF
  · subst last
    let s : Copy := { lcl_buff := lcl_buff, lcl_free := lcl_free }
    have starts : s.lcl_free = freeaddr % jb.size := free
    exact padEof_placed jb starts length.2 (blocks rfl)
  · let s : Copy := { lcl_buff := lcl_buff, lcl_free := lcl_free }
    have copied : Copied jb.size freeaddr s.lcl_buff (jnl_write jb s rectype jnl_rec parm1 in_str)
        (recordImage rectype jnl_rec parm1 in_str) :=
      jnl_write_copied jb free aligned' length fits last
    have imageLength : (recordImage rectype jnl_rec parm1 in_str).length = forwptr jnl_rec :=
      length_recordImage length
    constructor
    · exact copied.written.written
    · intro a apart
      rw [if_neg fun padded => last padded.1]
      exact copied.written.apart a (by rwa [imageLength])
    · rw [copied.free, imageLength]

/-- A buffer of a single block. -/
def oneBlock : jnl_buffer where
  size := 512
  fs_block_size := 512
  size_pos := by decide
  size_lt := by decide
  fs_block_power := ⟨0, rfl⟩
  fs_block_dvd := Nat.dvd_refl 512

/-- A buffer of 1024 bytes. -/
def twoBlocks : jnl_buffer where
  size := 1024
  fs_block_size := 512
  size_pos := by decide
  size_lt := by decide
  fs_block_power := ⟨0, rfl⟩
  fs_block_dvd := ⟨2, rfl⟩

/-- The beginning of an `EOF` record: its type, and its length of 40. -/
def eofRecord : ByteMemory := fun a => if a = 0 then 12 else if a = 1 then 40 else 0

theorem eofRecord_length : RecordLength JRT_EOF eofRecord :=
  ⟨⟨5, rfl⟩, rfl⟩

/-- In one block the padding goes over the first 16 bytes of a record that reaches around the end. -/
theorem jnl_write_pads_own_record :
    8 ∣ 496 ∧ 496 = 496 % oneBlock.size ∧ RecordLength JRT_EOF eofRecord ∧ forwptr eofRecord ≤ oneBlock.size ∧
      ¬ Placed oneBlock 496 (fun _ => 0)
        (jnl_write oneBlock { lcl_buff := fun _ => 0, lcl_free := 496 } JRT_EOF eofRecord (fun _ => 0) fun _ => 0)
        JRT_EOF eofRecord (fun _ => 0) fun _ => 0 := by
  refine ⟨⟨62, rfl⟩, rfl, eofRecord_length, by decide, ?_⟩
  intro holds
  have first := holds.placed 0 12 rfl
  have lost : (jnl_write oneBlock { lcl_buff := fun _ => 0, lcl_free := 496 } JRT_EOF eofRecord (fun _ => 0)
      fun _ => 0).lcl_buff ((496 + 0) % oneBlock.size) = 0 := by
    decide +kernel
  rw [lost] at first
  exact absurd first (by decide)

/-- In two blocks it stays clear. -/
theorem jnl_write_places_eof :
    Placed twoBlocks 1008 (fun _ => 0)
      (jnl_write twoBlocks { lcl_buff := fun _ => 0, lcl_free := 1008 } JRT_EOF eofRecord (fun _ => 0)
        fun _ => 0) JRT_EOF eofRecord (fun _ => 0) fun _ => 0 :=
  jnl_write_places twoBlocks JRT_EOF eofRecord (fun _ => 0) (fun _ => 0) (fun _ => 0) 1008 1008 ⟨126, rfl⟩ rfl
    eofRecord_length (by decide) (by decide)

end Ydb.JournalBuffer
