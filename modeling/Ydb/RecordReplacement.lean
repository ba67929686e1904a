import Ydb.BlockEdits
import Mathlib.Data.List.GetD

/-!
# Building a block with a new value

The segments of a record between the front and the tail of a leaf are moved from the last one on, so that
in the same buffer none is overwritten before it is moved. In the block that comes out the record has the new
value, and all other records are as they were.
-/

namespace Ydb.BlockUpdate

open Lib

/-! ## Building -/

section Build

variable {mem base_addr : ByteMemory} {twin : Twin}

theorem store_nil (target : Nat) : mem.store target [] = mem := by
  funext a
  exact ByteMemory.store_of_outside (by simp; omega)

theorem store_inside {target i : Nat} {bytes : List UInt8} (inside : i < bytes.length) :
    mem.store target bytes (target + i) = bytes.getD i 0 := by
  rw [ByteMemory.store, if_pos ⟨Nat.le_add_right _ _, Nat.add_lt_add_left inside _⟩,
    Nat.add_sub_cancel_left]

/-- Two strings that stand one behind the other. -/
theorem store_append (target : Nat) (front back : List UInt8) :
    (mem.store (target + front.length) back).store target front = mem.store target (front ++ back) := by
  funext a
  by_cases before : a < target
  · rw [ByteMemory.store_of_outside (.inl before), ByteMemory.store_of_outside (.inl (by omega)),
      ByteMemory.store_of_outside (.inl before)]
  · obtain ⟨i, rfl⟩ := Nat.exists_eq_add_of_le (Nat.le_of_not_lt before)
    by_cases first : i < front.length
    · rw [store_inside first, store_inside (by rw [List.length_append]; omega),
        List.getD_append _ _ _ _ first]
    · rw [ByteMemory.store_of_outside (.inr (by omega))]
      obtain ⟨j, rfl⟩ := Nat.exists_eq_add_of_le (Nat.le_of_not_lt first)
      by_cases second : j < back.length
      · rw [← Nat.add_assoc, store_inside second, Nat.add_assoc,
          store_inside (by rw [List.length_append]; omega), List.getD_append_right _ _ _ _ (by omega),
          Nat.add_sub_cancel_left]
      · rw [ByteMemory.store_of_outside (.inr (by omega)),
          ByteMemory.store_of_outside (.inr (by rw [List.length_append]; omega))]

theorem buildForward_empty (front back : List BlkSegment) (ptr : Nat) :
    buildForward twin (front ++ .array [] :: back) ptr base_addr =
      buildForward twin (front ++ back) ptr base_addr := by
  induction front generalizing ptr base_addr with
  | nil =>
    have moved : BlkSegment.memmove (.array []) twin ptr base_addr = base_addr := store_nil ptr
    rw [List.nil_append, List.nil_append, buildForward, moved]
    rfl
  | cons seg front ih =>
    rw [List.cons_append, List.cons_append, buildForward, buildForward, ih]

theorem buildBackward_empty (front back : List BlkSegment) (ptr : Nat) :
    buildBackward twin (front ++ .array [] :: back) ptr base_addr =
      buildBackward twin (front ++ back) ptr base_addr := by
  induction front generalizing ptr base_addr with
  | nil =>
    have moved : BlkSegment.memmove (.array []) twin ptr base_addr = base_addr := store_nil ptr
    rw [List.nil_append, List.nil_append, buildBackward]
    exact congrArg (buildBackward twin back ptr) moved
  | cons seg front ih =>
    rw [List.cons_append, List.cons_append, buildBackward, buildBackward]
    exact ih _

/-- An empty segment behind the first one makes no difference. -/
theorem build_empty (cse : CwSetElement) (len ctn : Nat) (first : BlkSegment)
    (front back : List BlkSegment) :
    gvcst_blk_build cse ⟨len, first :: (front ++ .array [] :: back)⟩ ctn twin base_addr =
      gvcst_blk_build cse ⟨len, first :: (front ++ back)⟩ ctn twin base_addr := by
  unfold gvcst_blk_build
  dsimp only
  rw [List.tail_cons, List.tail_cons, List.map_cons, List.map_cons, List.headD_cons, List.headD_cons]
  cases cse.forward_process with
  | true =>
    rw [if_pos rfl, if_pos rfl]
    cases cse.first_copy with
    | true => exact buildForward_empty (first :: front) back _
    | false => exact buildForward_empty front back _
  | false =>
    rw [if_neg Bool.false_ne_true, if_neg Bool.false_ne_true]
    have reversed : ∀ front : List BlkSegment, (front ++ .array [] :: back).reverse =
        back.reverse ++ .array [] :: front.reverse := by
      intro front
      rw [List.reverse_append, List.reverse_cons, List.append_assoc, List.singleton_append]
    cases cse.first_copy with
    | true =>
      have whole := reversed (first :: front)
      rw [List.cons_append] at whole
      rw [if_pos rfl, if_pos rfl, whole, buildBackward_empty, ← List.reverse_append, List.cons_append]
    | false =>
      rw [if_neg Bool.false_ne_true, if_neg Bool.false_ne_true, reversed, buildBackward_empty,
        ← List.reverse_append]

theorem storeHeader_behind {level len ctn a : Nat} (behind : SIZEOF_blk_hdr ≤ a) :
    storeHeader base_addr level len ctn a = base_addr a := by
  unfold SIZEOF_blk_hdr at behind
  unfold storeHeader
  rw [ByteMemory.store_of_outside (.inr (by simp; omega)),
    ByteMemory.store_of_outside (.inr (by simp; omega)),
    ByteMemory.store_of_outside (.inr (by simp; omega)),
    ByteMemory.store_of_outside (.inr (by simp; omega))]

theorem levl_storeHeader {level len ctn : Nat} (small : level < 256) :
    levl (storeHeader base_addr level len ctn) = level := by
  unfold levl storeHeader
  rw [ByteMemory.store_of_outside (.inl (by omega)), ByteMemory.store_of_outside (.inl (by omega))]
  exact toNat_byte small

theorem bsiz_storeHeader {level len ctn : Nat} (small : len < 2 ^ 32) :
    bsiz (storeHeader base_addr level len ctn) = len := by
  have field : ∀ i < 4, storeHeader base_addr level len ctn (4 + i) = UInt8.ofNat (len / 256 ^ i) := by
    intro i less
    unfold storeHeader
    rw [ByteMemory.store_of_outside (.inl (by omega)), store_inside (by simpa using less)]
    simp [less]
  have low : ∀ n, (UInt8.ofNat n).toNat = n % 256 := fun n => UInt8.toNat_ofNat
  unfold bsiz
  rw [field 0 (by omega), field 1 (by omega), field 2 (by omega), field 3 (by omega), low, low, low, low]
  omega

/-- A block in which the bytes from `rp` on are replaced by a record, and `t` bytes from `rest` on stand
behind it. -/
structure Layout (old built : ByteMemory) (rp rest t : Nat) (bytes : List UInt8) : Prop where
  bsiz : bsiz built = rp + bytes.length + t
  levl : levl built = 0
  front : ∀ a, SIZEOF_blk_hdr ≤ a → a < rp → built a = old a
  record : ∀ i < bytes.length, built (rp + i) = bytes.getD i 0
  tail : ∀ i < t, built (rp + bytes.length + i) = old (rest + i)

/-- The segments of a record between the front of a block and its tail. -/
def recordSegments (rp rest : Nat) (hdr key value : List UInt8) (t : Int) : List BlkSegment :=
  [.buffer SIZEOF_blk_hdr (rp - SIZEOF_blk_hdr), .array hdr, .array key, .array value] ++
    (if t > 0 then [.buffer rest t] else [])

/-- The moves of the tail and of the record, which come first. -/
theorem buildBackward_record {rp rest t : Nat} {hdr key value : List UInt8} (front : List BlkSegment) :
    buildBackward twin ((if (t : Int) > 0 then [.buffer rest t] else []) ++
        ([.array value, .array key, .array hdr] ++ front)) (rp + (hdr ++ key ++ value).length + t) base_addr =
      buildBackward twin front rp
        ((base_addr.store (rp + (hdr ++ key ++ value).length) ((twin.getD base_addr).read rest t)).store rp
          (hdr ++ key ++ value)) := by
  have moved : ∀ back ptr mem, buildBackward twin ([.array value, .array key, .array hdr] ++ back)
      (ptr + (hdr ++ key ++ value).length) mem =
        buildBackward twin back ptr (mem.store ptr (hdr ++ key ++ value)) := by
    intro back ptr mem
    have atValue : ptr + (hdr ++ key ++ value).length - value.length = ptr + (hdr ++ key).length := by
      rw [@List.length_append _ (hdr ++ key) value]
      omega
    have atKey : ptr + (hdr ++ key).length - key.length = ptr + hdr.length := by
      rw [List.length_append]
      omega
    have atHeader : ptr + hdr.length - hdr.length = ptr := Nat.add_sub_cancel _ _
    rw [List.cons_append, List.cons_append, List.cons_append, List.nil_append, buildBackward,
      buildBackward, buildBackward]
    dsimp only [BlkSegment.len, BlkSegment.memmove, Int.toNat_natCast]
    rw [atValue, atKey, atHeader, store_append, store_append]
  by_cases empty : t = 0
  · subst empty
    have nothing : (twin.getD base_addr).read rest 0 = [] := rfl
    rw [if_neg (by decide), List.nil_append, Nat.add_zero, moved, nothing, store_nil]
  · rw [if_pos (by omega), List.singleton_append, buildBackward]
    dsimp only [BlkSegment.len, BlkSegment.memmove, Int.toNat_natCast]
    rw [Nat.add_sub_cancel, moved]

/-- The block when the tail and the record are in their places. -/
def placed (twin : Twin) (start : ByteMemory) (rp rest t : Nat) (bytes : List UInt8) : ByteMemory :=
  (start.store (rp + bytes.length) ((twin.getD start).read rest t)).store rp bytes

theorem build_eq {cse : CwSetElement} (leaf : cse.level = 0) (backward : cse.forward_process = false)
    {rp rest t ctn : Nat} {hdr key value : List UInt8} (inside : SIZEOF_blk_hdr ≤ rp) :
    gvcst_blk_build cse ⟨rp + (hdr ++ key ++ value).length + t, recordSegments rp rest hdr key value t⟩ ctn
        twin base_addr =
      let mid := placed twin (storeHeader base_addr 0 (rp + (hdr ++ key ++ value).length + t) ctn) rp rest t
        (hdr ++ key ++ value)
      if cse.first_copy then mid.store SIZEOF_blk_hdr ((twin.getD mid).read SIZEOF_blk_hdr (rp - SIZEOF_blk_hdr))
      else mid := by
  have order : ∀ front back : List BlkSegment,
      (front ++ [BlkSegment.array hdr, .array key, .array value] ++ back).reverse =
        back.reverse ++ ([.array value, .array key, .array hdr] ++ front.reverse) := by
    intro front back
    rw [List.reverse_append, List.reverse_append]
    rfl
  have last : (if (t : Int) > 0 then [BlkSegment.buffer rest t] else []).reverse =
      if (t : Int) > 0 then [BlkSegment.buffer rest t] else [] := by
    split <;> rfl
  unfold gvcst_blk_build recordSegments placed
  dsimp only
  rw [leaf, backward, if_neg Bool.false_ne_true]
  cases first : cse.first_copy with
  | false =>
    have reversed := order [] (if (t : Int) > 0 then [BlkSegment.buffer rest t] else [])
    rw [List.nil_append, last] at reversed
    rw [if_neg Bool.false_ne_true, if_neg Bool.false_ne_true, List.cons_append, List.tail_cons, reversed,
      buildBackward_record]
    rfl
  | true =>
    have reversed := order [.buffer SIZEOF_blk_hdr (rp - SIZEOF_blk_hdr)]
      (if (t : Int) > 0 then [BlkSegment.buffer rest t] else [])
    have front : ((rp : Int) - SIZEOF_blk_hdr).toNat = rp - SIZEOF_blk_hdr := by omega
    rw [List.singleton_append, last] at reversed
    rw [if_pos rfl, if_pos rfl, reversed, buildBackward_record, List.reverse_singleton, buildBackward,
      buildBackward]
    dsimp only [BlkSegment.len, BlkSegment.memmove]
    rw [front, Nat.sub_sub_self inside]

/-- What is built from the segments of a record. -/
theorem build_layout {cse : CwSetElement} (leaf : cse.level = 0) (backward : cse.forward_process = false)
    (copied : twin.isSome = true → cse.first_copy = true) {rp rest t ctn : Nat}
    {hdr key value : List UInt8} (inside : SIZEOF_blk_hdr ≤ rp) (behind : SIZEOF_blk_hdr ≤ rest)
    (small : rp + (hdr ++ key ++ value).length + t < 2 ^ 32) :
    Layout (twin.getD base_addr)
      (gvcst_blk_build cse ⟨rp + (hdr ++ key ++ value).length + t,
        recordSegments rp rest hdr key value t⟩ ctn twin base_addr) rp rest t (hdr ++ key ++ value) := by
  rw [build_eq leaf backward inside]
  dsimp only
  generalize lens : rp + (hdr ++ key ++ value).length + t = len at small
  generalize hdr ++ key ++ value = bytes at lens
  generalize starts : storeHeader base_addr 0 len ctn = start
  generalize mids : placed twin start rp rest t bytes = mid
  -- the buffer of the segments, as the loop finds it
  have source : ∀ a, SIZEOF_blk_hdr ≤ a → (twin.getD start) a = (twin.getD base_addr) a := by
    intro a above
    cases twin with
    | none =>
      rw [Option.getD_none, ← starts]
      exact storeHeader_behind above
    | some old => rfl
  have midOutside : ∀ a, a < rp → mid a = start a := by
    intro a before
    rw [← mids, placed, ByteMemory.store_of_outside (.inl before),
      ByteMemory.store_of_outside (.inl (by omega))]
  have midTail : ∀ i < t, mid (rp + bytes.length + i) = (twin.getD base_addr) (rest + i) := by
    intro i within
    rw [← mids, placed, ByteMemory.store_of_outside (.inr (by omega)),
      store_inside (by rw [ByteMemory.length_read]; exact within), ← source _ (by omega),
      List.getD_eq_getElem?_getD, ByteMemory.read_getElem? within]
    rfl
  generalize builds : (if cse.first_copy then
    mid.store SIZEOF_blk_hdr ((twin.getD mid).read SIZEOF_blk_hdr (rp - SIZEOF_blk_hdr)) else mid) = built
  -- the front may have been copied, nothing else
  have unchanged : ∀ a, a < SIZEOF_blk_hdr ∨ rp ≤ a → built a = mid a := by
    intro a outside
    rw [← builds]
    split
    · exact ByteMemory.store_of_outside (by rw [ByteMemory.length_read]; omega)
    · rfl
  refine ⟨?_, ?_, ?_, ?_, ?_⟩
  · have header : bsiz built = bsiz start := by
      unfold bsiz
      have same : ∀ a < SIZEOF_blk_hdr, built a = start a := fun a less =>
        (unchanged a (.inl less)).trans (midOutside a (by omega))
      rw [same 4 (by decide), same 5 (by decide), same 6 (by decide), same 7 (by decide)]
    rw [header, ← starts, bsiz_storeHeader small, lens]
  · have header : levl built = levl start := by
      unfold levl
      rw [unchanged 3 (.inl (by decide)), midOutside 3 (Nat.lt_of_lt_of_le (by decide) inside)]
    rw [header, ← starts, levl_storeHeader (by decide)]
  · intro a above before
    have inPlace : twin = none → mid a = (twin.getD base_addr) a := by
      intro same
      rw [midOutside a before, ← source a above, same, Option.getD_none]
    by_cases first : cse.first_copy = true
    · have moved : built a = (twin.getD mid) a := by
        obtain ⟨i, rfl⟩ := Nat.exists_eq_add_of_le above
        have within : i < rp - SIZEOF_blk_hdr := by omega
        rw [← builds, if_pos first, store_inside (by rw [ByteMemory.length_read]; exact within),
          List.getD_eq_getElem?_getD, ByteMemory.read_getElem? within]
        rfl
      rw [moved]
      cases twin with
      | none => exact inPlace rfl
      | some old => rfl
    · have alone : twin = none := by
        cases twin with
        | none => rfl
        | some old => exact absurd (copied rfl) first
      rw [← builds, if_neg first]
      exact inPlace alone
  · intro i within
    rw [unchanged _ (.inr (Nat.le_add_right _ _)), ← mids, placed, store_inside within]
  · intro i within
    rw [unchanged _ (.inr (by omega)), midTail i within]

end Build

/-! ## The block with the new value -/

/-- The whole of a record. -/
def recordBytes (buffaddr : ByteMemory) (r : BlockRec) : List UInt8 :=
  buffaddr.read r.offset (rsiz buffaddr r.offset)

/-- What a record holds in front of its data. -/
def dataOffset (buffaddr : ByteMemory) (r : BlockRec) : Nat :=
  SIZEOF_rec_hdr + (r.key.length - EVAL_CMPC buffaddr r.offset)

/-- The value in a record. -/
def recordData (buffaddr : ByteMemory) (r : BlockRec) : List UInt8 :=
  buffaddr.read (r.offset + dataOffset buffaddr r) (rsiz buffaddr r.offset - dataOffset buffaddr r)

/-- How far the records behind a record move when it gets a value. -/
def growth (buffaddr : ByteMemory) (r : BlockRec) (value : List UInt8) : Int :=
  value.length - (recordData buffaddr r).length

/-- A block in which a record got a value, and all other records are as they were. -/
structure Replaced (blk_size : Nat) (old built : ByteMemory) (before : List BlockRec) (r : BlockRec)
    (after : List BlockRec) (last : Nat) (value : List UInt8) : Prop where
  block : WellFormedBlock blk_size built (before ++ r :: after.map (shifted (growth old r value)))
    (last + growth old r value).toNat
  leaf : levl built = 0
  data : recordData built r = value
  cmpc : EVAL_CMPC built r.offset = EVAL_CMPC old r.offset
  before : ∀ x ∈ before, recordBytes built x = recordBytes old x
  after : ∀ x ∈ after, recordBytes built (shifted (growth old r value) x) = recordBytes old x

section Replacing

variable {blk_size last : Nat} {old built : ByteMemory} {before after : List BlockRec} {r : BlockRec}
variable {value : List UInt8} {cmpc2 : UInt8}

theorem leaf_records (block : WellFormedBlock blk_size old (before ++ r :: after) last) (leaf : levl old = 0) :
    Records old true (bsiz old) [] SIZEOF_blk_hdr (before ++ r :: after) last := by
  have records := block.records
  rwa [decide_eq_true leaf] at records

theorem length_recordData : (recordData old r).length = rsiz old r.offset - dataOffset old r :=
  ByteMemory.length_read

/-- The bytes of the new record. -/
structure NewRecord (built : ByteMemory) (r : BlockRec) (c size : Nat) (value : List UInt8) : Prop where
  rsiz : rsiz built r.offset = size
  cmpc : EVAL_CMPC built r.offset = c
  key : built.read (r.offset + SIZEOF_rec_hdr) (r.key.length - c) = r.key.drop c
  value : built.read (r.offset + (SIZEOF_rec_hdr + (r.key.length - c))) value.length = value

/-- The record with the new value. -/
theorem Layout.newRecord {rest t c size : Nat}
    (layout : Layout old built r.offset rest t (rec_hdr size c cmpc2 ++ r.key.drop c ++ value))
    (small : size < 2 ^ 16) (count : c ≤ 1020) : NewRecord built r c size value := by
  have sizeBytes : ((size : Int) % 2 ^ 16).toNat = size := by omega
  have header : rec_hdr size c cmpc2 =
      [UInt8.ofNat size, UInt8.ofNat (size / 256), (SET_CMPC cmpc2 c).1, (SET_CMPC cmpc2 c).2] := by
    unfold rec_hdr
    rw [sizeBytes]
  have whole : built.read r.offset (SIZEOF_rec_hdr + ((r.key.drop c).length + value.length)) =
      rec_hdr size c cmpc2 ++ (r.key.drop c ++ value) := by
    rw [← List.append_assoc]
    apply List.ext_getElem
    · rw [ByteMemory.length_read, header]
      simp [SIZEOF_rec_hdr]
      omega
    · intro i less within
      have found := layout.record i within
      rw [List.getD_eq_getElem _ _ within] at found
      rw [ByteMemory.length_read] at less
      have there : (built.read r.offset _)[i]? = some (built (r.offset + i)) :=
        ByteMemory.read_getElem? less
      rw [List.getElem?_eq_getElem (by rw [ByteMemory.length_read]; exact less)] at there
      rw [Option.some.inj there, found]
  have behind : built.read (r.offset + SIZEOF_rec_hdr) ((r.key.drop c).length + value.length) =
      r.key.drop c ++ value := by
    have dropped := ByteMemory.read_drop built r.offset
      (Nat.le_add_right SIZEOF_rec_hdr ((r.key.drop c).length + value.length))
    rw [Nat.add_sub_cancel_left, whole, header] at dropped
    exact dropped
  have byte : ∀ i (less : i < 4), built (r.offset + i) = (rec_hdr size c cmpc2).getD i 0 := by
    intro i less
    have found := layout.record i (by rw [header]; simp; omega)
    rw [List.append_assoc, List.getD_append _ _ _ _ (by rw [header]; exact less)] at found
    exact found
  have b₀ := byte 0 (by decide)
  have b₁ := byte 1 (by decide)
  have b₂ := byte 2 (by decide)
  have b₃ := byte 3 (by decide)
  rw [header] at b₀ b₁ b₂ b₃
  refine ⟨rsiz_of_bytes small b₀ b₁, EVAL_SET_CMPC count b₂ b₃, ?_, ?_⟩
  · have front : built.read (r.offset + SIZEOF_rec_hdr) (r.key.drop c).length = _ :=
      ByteMemory.read_take (Nat.le_add_right (r.key.drop c).length value.length)
    rw [behind, List.take_left, List.length_drop] at front
    exact front
  · have back := ByteMemory.read_drop built (r.offset + SIZEOF_rec_hdr)
      (Nat.le_add_right (r.key.drop c).length value.length)
    rw [behind, List.drop_left, Nat.add_sub_cancel_left, List.length_drop, Nat.add_assoc] at back
    exact back

/-- The block is well formed, with the new value in the record and everything else as it was. -/
theorem replaced_of_layout (block : WellFormedBlock blk_size old (before ++ r :: after) last)
    (leaf : levl old = 0) {size t : Nat}
    (sized : size = dataOffset old r + value.length)
    (tailed : r.offset + rsiz old r.offset + t = bsiz old) (fits : r.offset + size + t ≤ blk_size)
    (layout : Layout old built r.offset (r.offset + rsiz old r.offset) t
      (rec_hdr size (EVAL_CMPC old r.offset) cmpc2 ++ r.key.drop (EVAL_CMPC old r.offset) ++ value)) :
    Replaced blk_size old built before r after last value := by
  have records := leaf_records block leaf
  obtain ⟨record, behind, above, inFront⟩ := Records.around records
  have small := block.small
  unfold MAX_DB_BLK_SIZE at small
  have new := layout.newRecord (by omega) (EVAL_CMPC_le _ _)
  have width : (rec_hdr size (EVAL_CMPC old r.offset) cmpc2 ++ r.key.drop (EVAL_CMPC old r.offset) ++
      value).length = size := by
    rw [sized, List.length_append, List.length_append, List.length_drop]
    rfl
  have old_ge : dataOffset old r ≤ rsiz old r.offset := by
    have enough := record.size
    rw [← record.cmpc] at enough
    exact enough
  have grown : growth old r value = (size : Int) - rsiz old r.offset := by
    unfold growth
    rw [length_recordData]
    omega
  have top : ((bsiz old : Int) + growth old r value).toNat = bsiz built := by
    rw [layout.bsiz, width, grown]
    omega
  have place : (((r.offset + rsiz old r.offset : Nat) : Int) + growth old r value).toNat =
      r.offset + rsiz built r.offset := by
    rw [new.rsiz, grown]
    omega
  have moved : ∀ a, r.offset + rsiz old r.offset ≤ a → a < bsiz old →
      built ((a : Int) + growth old r value).toNat = old a := by
    intro a above upto
    obtain ⟨i, rfl⟩ := Nat.exists_eq_add_of_le above
    have target : (((r.offset + rsiz old r.offset + i : Nat) : Int) + growth old r value).toNat =
        r.offset + size + i := by
      rw [grown]
      omega
    have there := layout.tail i (by omega)
    rw [width] at there
    rw [target, there]
  have rest := Records.shift behind (by rw [grown]; omega) moved
  rw [top, place] at rest
  have here : LeafRecord built (lastKey [] before) r := by
    refine ⟨record.wellFormed, record.short, record.order, new.cmpc.trans record.cmpc, ?_, ?_⟩
    · have key := new.key
      rw [record.cmpc] at key
      exact key
    · rw [new.rsiz, sized, ← record.cmpc]
      exact Nat.le_add_right _ _
  refine ⟨⟨?_, block.small, ?_⟩, layout.levl, ?_, new.cmpc, ?_, ?_⟩
  · rw [layout.bsiz, width]
    exact fits
  · rw [decide_eq_true layout.levl]
    exact Records.replace records (fun a low high => layout.front a low high) (here.cons rest)
  · have offset : dataOffset built r = dataOffset old r := by
      unfold dataOffset
      rw [new.cmpc]
    have data := new.value
    unfold recordData
    rw [offset, new.rsiz, sized, Nat.add_sub_cancel_left]
    exact data
  · intro x member
    obtain ⟨low, header, upto, _⟩ := inFront x member
    unfold SIZEOF_rec_hdr at header
    have same : ∀ k < rsiz old x.offset, built (x.offset + k) = old (x.offset + k) := fun k less =>
      layout.front _ (by omega) (by omega)
    have sameSize : rsiz built x.offset = rsiz old x.offset :=
      rsiz_congr (same 0 (by omega)) (same 1 (by omega))
    unfold recordBytes
    rw [sameSize]
    exact ByteMemory.read_congr same
  · intro x member
    obtain ⟨left, right, split⟩ := List.append_of_mem member
    rw [split] at behind
    obtain ⟨there, further, low, _⟩ := Records.around behind
    have upto := further.le_top
    have header := there.size
    unfold SIZEOF_rec_hdr at header
    have same : ∀ k < rsiz old x.offset,
        built ((shifted (growth old r value) x).offset + k) = old (x.offset + k) := by
      intro k less
      have target := moved (x.offset + k) (by omega) (by omega)
      rw [← target]
      congr 1
      unfold shifted
      rw [grown]
      dsimp only
      omega
    have sameSize : rsiz built (shifted (growth old r value) x).offset = rsiz old x.offset :=
      rsiz_congr (same 0 (by omega)) (same 1 (by omega))
    unfold recordBytes
    rw [sameSize]
    exact ByteMemory.read_congr same

end Replacing

end Ydb.BlockUpdate
