import Mathlib.Data.List.Find
import Ydb.ZBitVectors

/-!
# Positions in strings of bits

Positions are counted from one. Setting, reading, counting and finding bits, and the
condition under which a call of any of the functions is right.
-/

namespace Ydb.ZBit

/-! ## Setting and reading a bit -/

/-- The quotients of a position. -/
theorem position_parts {pos : Int} {i : Nat} (position : pos = i + 1) :
    ((pos + 7).tdiv 8 - 1 + 1).toNat = 1 + i / 8 ∧ pos.tmod 8 = ((i + 1) % 8 : Nat) := by
  subst position
  constructor
  · rw [Int.tdiv_eq_ediv_of_nonneg (by omega)]
    omega
  · rw [Int.tmod_eq_emod_of_nonneg (by omega)]
    omega

theorem setMask_bit : ∀ q < 8, ∀ j < 8,
    (setMask.getD ((q + 1) % 8) 0).toBitVec.getMsbD j = decide (j = q) := by decide

theorem bitOf_set {s : List UInt8} {i : Nat} (inside : 1 + i / 8 < s.length) {byte : UInt8} {truth : Bool}
    (changes : ∀ j < 8, byte.toBitVec.getMsbD j =
      if j = i % 8 then truth else (s.getD (1 + i / 8) 0).toBitVec.getMsbD j) (k : Nat) :
    bitOf (s.set (1 + i / 8) byte) k = if k = i then truth else bitOf s k := by
  rw [bitOf, bitOf, getD_set inside]
  by_cases sameByte : k / 8 = i / 8
  · rw [if_pos (by omega), changes _ (Nat.mod_lt _ (by decide)), sameByte]
    by_cases same : k = i
    · rw [if_pos (by omega), if_pos same]
    · rw [if_neg (by omega), if_neg same]
  · rw [if_neg (by omega), if_neg]
    intro same
    exact sameByte (by rw [same])

/-- $ZBITSET sets one bit. -/
theorem op_fnzbitset_spec (stp : Nat → UInt8) (s : BitString) {pos : Int} (truthval : Int) (low : 1 ≤ pos)
    (high : pos ≤ (bits s.bytes).length) :
    ∃ r : BitString, op_fnzbitset stp s.bytes pos truthval = .ok r.bytes ∧
      bits r.bytes = (bits s.bytes).set (pos - 1).toNat (decide (truthval ≠ 0)) := by
  obtain ⟨i, position⟩ : ∃ i : Nat, pos = i + 1 := ⟨(pos - 1).toNat, by omega⟩
  obtain ⟨byteIndex, bitIndex⟩ := position_parts position
  have nonempty := s.nonempty
  have bounds := s.bitLength_bounds
  rw [length_bits] at high
  have inside : 1 + i / 8 < s.bytes.length := by omega
  obtain ⟨area, copied, length, content⟩ := fillBytes_inside (readByte s.bytes) (fun k => s.bytes.getD k 0)
    s.bytes.length (ENSURE_STP_FREE_SPACE stp s.bytes.length) 0 (by rw [length_reserved]; omega)
    (fun k above below => readByte_inside (by omega))
  rw [length_reserved] at length
  have same : area = s.bytes := by
    apply List.ext_getElem
    · omega
    · intro k left right
      have here := content k
      rw [if_pos (by omega)] at here
      simpa [left, right] using here
  subst same
  let bit := setMask.getD ((i + 1) % 8) 0
  let byte := if truthval ≠ 0 then s.bytes.getD (1 + i / 8) 0 ||| bit else s.bytes.getD (1 + i / 8) 0 &&& ~~~bit
  have first : (s.bytes.set (1 + i / 8) byte).getD 0 0 = s.bytes.getD 0 0 := by
    rw [getD_set inside, if_neg (by omega)]
  have sameLength : bitLength (s.bytes.set (1 + i / 8) byte) = bitLength s.bytes := by
    rw [bitLength, first, List.length_set]
    rfl
  have changes : ∀ j < 8, byte.toBitVec.getMsbD j =
      if j = i % 8 then decide (truthval ≠ 0) else (s.bytes.getD (1 + i / 8) 0).toBitVec.getMsbD j := by
    intro j within
    have mask := setMask_bit (i % 8) (Nat.mod_lt _ (by decide)) j within
    rw [show (i % 8 + 1) % 8 = (i + 1) % 8 by omega] at mask
    by_cases truth : truthval ≠ 0
    · simp only [byte, if_pos truth, UInt8.toBitVec_or, BitVec.getMsbD_or, bit, mask]
      by_cases here : j = i % 8
      · simpa [here] using truth
      · simp [here]
    · simp only [byte, if_neg truth, UInt8.toBitVec_and, UInt8.toBitVec_not, BitVec.getMsbD_and,
        BitVec.getMsbD_not, bit, mask, truth, decide_false]
      by_cases here : j = i % 8
      · simp [here]
      · simp [here, within]
  refine ⟨⟨s.bytes.set (1 + i / 8) byte, ?_, ?_, ?_, ?_⟩, ?_, ?_⟩
  · rw [List.length_set]
    exact nonempty
  · rw [List.length_set]
    exact s.short
  · rw [first]
    exact s.padded
  · rw [first, List.length_set]
    exact s.fits
  · have within : ¬ (1 > pos ∨ pos > (bitLength s.bytes : Nat)) := by omega
    rw [op_fnzbitset, s.checkBitstr]
    change (if _ then _ else _) = _
    rw [s.strLen, if_neg within, copied]
    change (readByte _ _ >>= fun byte_1 => _) = _
    rw [byteIndex, bitIndex, readByte_inside inside]
    exact writeByte_inside inside _
  · rw [bits_eq sameLength (fun k _ => bitOf_set inside changes k)]
    apply List.ext_getElem
    · simp
    · intro k left right
      rw [List.getElem_set]
      simp only [List.getElem_map, List.getElem_range, bits]
      by_cases here : k = i
      · rw [if_pos here, if_pos (by omega)]
      · rw [if_neg here, if_neg (by omega)]

/-- A position outside the string is refused. -/
theorem op_fnzbitset_refuses (stp : Nat → UInt8) (s : BitString) {pos : Int} (truthval : Int)
    (beyond : ¬ (1 ≤ pos ∧ pos ≤ (bits s.bytes).length)) :
    op_fnzbitset stp s.bytes pos truthval = .error .ERR_INVBITPOS := by
  rw [length_bits] at beyond
  rw [op_fnzbitset, s.checkBitstr]
  change (if _ then _ else _) = _
  rw [s.strLen, if_pos (by omega)]

theorem shifted_bit : ∀ n < 256, ∀ q < 8,
    ((UInt8.ofNat n <<< UInt8.ofNat q) >>> 7).toNat =
      if (UInt8.ofNat n).toBitVec.getMsbD q then 1 else 0 := by decide +kernel

/-- `$ZBITGET` reads the bit at the position. -/
theorem op_fnzbitget_spec (s : BitString) {pos : Int} (low : 1 ≤ pos) (high : pos ≤ (bits s.bytes).length) :
    op_fnzbitget s.bytes pos = .ok (if (bits s.bytes).getD (pos - 1).toNat false then 1 else 0) := by
  obtain ⟨i, position⟩ : ∃ i : Nat, pos = i + 1 := ⟨(pos - 1).toNat, by omega⟩
  obtain ⟨byteIndex, bitIndex⟩ := position_parts position
  have bounds := s.bitLength_bounds
  rw [length_bits] at high
  have inside : 1 + i / 8 < s.bytes.length := by omega
  have within : ¬ (1 > pos ∨ pos > (bitLength s.bytes : Nat)) := by omega
  have shift : (if pos.tmod 8 = 0 then 8 else pos.tmod 8) - 1 = ((i % 8 : Nat) : Int) := by
    rw [bitIndex]
    split <;> omega
  have amount : UInt8.ofInt ((i % 8 : Nat) : Int) = UInt8.ofNat (i % 8) := by
    apply UInt8.toNat_inj.mp
    rw [UInt8.ofInt, UInt8.toNat_ofNat', UInt8.toNat_ofNat']
    omega
  have value := shifted_bit _ (s.bytes.getD (1 + i / 8) 0).toNat_lt (i % 8) (Nat.mod_lt _ (by decide))
  rw [UInt8.ofNat_toNat] at value
  rw [op_fnzbitget, s.checkBitstr]
  change (if _ then _ else _) = _
  rw [s.strLen, if_neg within, byteIndex, readByte_inside inside]
  change Except.ok _ = _
  rw [shift, amount, value, show (pos - 1).toNat = i by omega, bits_getD (by omega), bitOf]
  split <;> rfl

theorem op_fnzbitget_refuses (s : BitString) {pos : Int} (beyond : ¬ (1 ≤ pos ∧ pos ≤ (bits s.bytes).length)) :
    op_fnzbitget s.bytes pos = .error .ERR_INVBITPOS := by
  rw [length_bits] at beyond
  rw [op_fnzbitget, s.checkBitstr]
  change (if _ then _ else _) = _
  rw [s.strLen, if_pos (by omega)]

/-! ## Counting -/

theorem bitSet_eq : ∀ n < 256, ∀ i < 8, bitSet (UInt8.ofNat n) i = (UInt8.ofNat n).toBitVec.getMsbD i := by
  decide +kernel

theorem bitSet_bitOf (s : List UInt8) (k : Nat) {i : Nat} (inside : i < 8) :
    bitSet (s.getD (k + 1) 0) i = bitOf s (8 * k + i) := by
  have eq := bitSet_eq _ (s.getD (k + 1) 0).toNat_lt i inside
  rw [UInt8.ofNat_toNat] at eq
  rw [eq, bitOf, show (8 * k + i) / 8 = k by omega, show (8 * k + i) % 8 = i by omega, Nat.add_comm 1 k]

/-- The loop over one byte counts its bits. -/
theorem countBits_spec {s : List UInt8} {k : Nat} (stored : k + 1 < s.length) (turns : Nat) {i : Nat}
    (inside : i + turns ≤ 8) (bit_count : Int) :
    countBits s (k + 1) i turns bit_count =
      .ok (bit_count + ((List.range' (8 * k + i) turns).countP (bitOf s) : Nat)) := by
  induction turns generalizing i bit_count with
  | zero => simp [countBits]
  | succ turns ih =>
    rw [countBits, readByte_inside stored]
    change countBits s (k + 1) (i + 1) turns _ = _
    rw [ih (by omega), bitSet_bitOf s k (by omega), List.range'_succ, List.countP_cons,
      Nat.add_assoc]
    cases bitOf s (8 * k + i) with
    | false => simp
    | true =>
      simp only [if_true]
      congr 1
      omega

theorem countBytes_spec {s : List UInt8} (turns : Nat) {k : Nat} (stored : k + turns < s.length) (bit_count : Int) :
    countBytes s (k + 1) turns bit_count =
      .ok (bit_count + ((List.range' (8 * k) (8 * turns)).countP (bitOf s) : Nat)) := by
  induction turns generalizing k bit_count with
  | zero => simp [countBytes]
  | succ turns ih =>
    rw [countBytes, countBits_spec (by omega) 8 (by omega)]
    change countBytes s (k + 1 + 1) turns _ = _
    rw [ih (by omega), show 8 * (turns + 1) = 8 + 8 * turns by omega, ← List.range'_append_1,
      List.countP_append, Nat.add_zero, Nat.mul_add, Nat.mul_one]
    congr 1
    omega

/-- The last byte of a string that is not empty, and the number of its bits. -/
theorem lastByte_spec (len : Nat) (nonempty : 0 < len) :
    ∃ n m : Nat, lastByte len = ((n : Int), (m : Int)) ∧ 8 * n + m = len ∧ 1 ≤ m ∧ m ≤ 8 := by
  refine ⟨(len - 1) / 8, (len - 1) % 8 + 1, ?_, by omega, by omega, by omega⟩
  rw [lastByte, Int.tdiv_eq_ediv_of_nonneg (by omega), Int.tmod_eq_emod_of_nonneg (by omega)]
  apply Prod.ext
  · change ((len : Int) + 7) / 8 - 1 = _
    omega
  · change (if (len : Int) % 8 = 0 then 8 else (len : Int) % 8) = _
    split <;> omega

theorem lastByte_empty : lastByte 0 = (-1, 8) := by decide

theorem count_bits (s : List UInt8) :
    (bits s).count true = (List.range' 0 (bitLength s)).countP (bitOf s) := by
  rw [bits, List.count, List.countP_map, List.range_eq_range']
  congr 1
  funext i
  simp

/-- The number of ones is right when there are any bits; else a byte behind the operand is read. -/
theorem op_fnzbitcoun_spec (s : BitString) :
    op_fnzbitcoun s.bytes = .ok ((bits s.bytes).count true : Nat) ↔ bits s.bytes ≠ [] := by
  have bounds := s.bitLength_bounds
  have run : op_fnzbitcoun s.bytes = (countBytes s.bytes 1 (lastByte (bitLength s.bytes)).1.toNat 0 >>= fun c =>
      countBits s.bytes (1 + (lastByte (bitLength s.bytes)).1.toNat) 0
        (lastByte (bitLength s.bytes)).2.toNat c) := by
    rw [op_fnzbitcoun, s.checkBitstr]
    change (countBytes _ _ _ _ >>= fun c => _) = _
    rw [s.strLen]
    rfl
  have empty : bits s.bytes = [] ↔ bitLength s.bytes = 0 := by
    rw [← List.length_eq_zero_iff, length_bits]
  rw [run, Ne, empty]
  by_cases none : bitLength s.bytes = 0
  · rw [none, Int.natCast_zero, lastByte_empty]
    have outside : countBits s.bytes 1 0 8 0 = .error .outside := by
      rw [countBits, readByte_outside (by omega)]
      rfl
    change countBits s.bytes 1 0 8 0 = _ ↔ _
    rw [outside]
    simp
  · obtain ⟨n, m, last, total, some, most⟩ := lastByte_spec (bitLength s.bytes) (by omega)
    rw [last]
    change (countBytes s.bytes (0 + 1) (n : Int).toNat 0 >>= fun c =>
      countBits s.bytes (1 + (n : Int).toNat) 0 (m : Int).toNat c) = _ ↔ _
    rw [Int.toNat_natCast, Int.toNat_natCast, countBytes_spec n (by omega)]
    change countBits s.bytes (1 + n) 0 m _ = _ ↔ _
    rw [Nat.add_comm 1 n, countBits_spec (by omega) m (by omega), count_bits, ← total,
      ← List.range'_append_1, List.countP_append]
    refine ⟨fun _ => by omega, fun _ => ?_⟩
    simp

/-! ## Finding -/

/-- Whether a bit is the one that is looked for. -/
def isWanted (s : List UInt8) (truthval : Int) (i : Nat) : Bool := bitOf s i = decide (truthval ≠ 0)

theorem findBits_spec {s : List UInt8} (truthval : Int) {k : Nat} (stored : k + 1 < s.length) (turns : Nat) {i : Nat}
    (inside : i + turns ≤ 8) :
    findBits s truthval (k + 1) i turns =
      .ok (((List.range' (8 * k + i) turns).find? (isWanted s truthval)).map (· - 8 * k)) := by
  induction turns generalizing i with
  | zero => simp [findBits]
  | succ turns ih =>
    rw [findBits, readByte_inside stored]
    change (if _ then _ else _) = _
    rw [bitSet_bitOf s k (by omega), List.range'_succ, List.find?_cons]
    by_cases found : bitOf s (8 * k + i) = decide (truthval ≠ 0)
    · have wanted : isWanted s truthval (8 * k + i) = true := by simpa [isWanted] using found
      rw [if_pos found, wanted]
      simp
    · have unwanted : isWanted s truthval (8 * k + i) = false := by simpa [isWanted] using found
      rw [if_neg found, unwanted, ih (by omega), Nat.add_assoc]

theorem findBytes_spec {s : List UInt8} (truthval : Int) (turns : Nat) {k : Nat} (stored : k + turns < s.length) :
    findBytes s truthval (k + 1) turns =
      .ok (((List.range' (8 * k) (8 * turns)).find? (isWanted s truthval)).map fun j => (j / 8 + 1, j % 8)) := by
  induction turns generalizing k with
  | zero => simp [findBytes]
  | succ turns ih =>
    rw [findBytes, findBits_spec truthval (by omega) 8 (by omega), show 8 * (turns + 1) = 8 + 8 * turns by omega,
      ← List.range'_append_1, List.find?_append, Nat.add_zero]
    cases found : (List.range' (8 * k) 8).find? (isWanted s truthval) with
    | none =>
      change findBytes s truthval (k + 1 + 1) turns = _
      rw [ih (by omega)]
      rfl
    | some j =>
      have place := List.mem_range'_1.mp (List.mem_of_find?_eq_some found)
      change Except.ok (some (k + 1, j - 8 * k)) = _
      simp only [Option.some_or, Option.map_some]
      rw [show j / 8 + 1 = k + 1 by omega, show j % 8 = j - 8 * k by omega]

/-- One more than the position of a bit, or zero. -/
def positionOf : Option Nat → Int
  | some j => j + 2
  | none => 0

/-- The search behind the first byte. -/
theorem findBehind_spec {s : List UInt8} (truthval : Int) {n m k : Nat} (stored : n + 1 < s.length) (before : k < n)
    (most : m ≤ 8) :
    findBehind s truthval n m (k + 1 : Nat) =
      .ok (positionOf ((List.range' (8 * (k + 1)) (8 * n + m - 8 * (k + 1))).find? (isWanted s truthval))) := by
  have turns : ((n : Int) - (k + 1 : Nat)).toNat = n - (k + 1) := by omega
  have last : k + 1 + (n - (k + 1)) + 1 = n + 1 := by omega
  have parts : 8 * n + m - 8 * (k + 1) = 8 * (n - (k + 1)) + m := by omega
  have behind : 8 * (k + 1) + 8 * (n - (k + 1)) = 8 * n := by omega
  rw [findBehind, Int.toNat_natCast, turns, last, findBytes_spec truthval _ (by omega), Int.toNat_natCast, parts,
    ← List.range'_append_1, List.find?_append, behind]
  cases found : (List.range' (8 * (k + 1)) (8 * (n - (k + 1)))).find? (isWanted s truthval) with
  | some j =>
    change Except.ok (_ : Int) = Except.ok (_ : Int)
    congr 1
    change (((j % 8 : Nat) : Int) + 2 + (((j / 8 + 1 : Nat) : Int) - 1) * 8) = (j : Int) + 2
    omega
  | none =>
    change (findBits s truthval (n + 1) 0 m >>= fun i => _) = _
    rw [findBits_spec truthval stored m (by omega), Nat.add_zero]
    cases inLast : (List.range' (8 * n) m).find? (isWanted s truthval) with
    | some j =>
      have place := List.mem_range'_1.mp (List.mem_of_find?_eq_some inLast)
      change Except.ok (_ : Int) = Except.ok (_ : Int)
      congr 1
      change (((j - 8 * n : Nat) : Int) + 2 + (n : Int) * 8) = (j : Int) + 2
      omega
    | none => rfl

/-- The search from a position. -/
theorem findFrom_spec {s : List UInt8} (truthval : Int) {len i : Nat} (stored : len ≤ 8 * (s.length - 1))
    (inside : i < len) :
    findFrom s truthval len (i + 1 : Nat) =
      .ok (positionOf ((List.range' i (len - i)).find? (isWanted s truthval))) := by
  obtain ⟨n, m, last, total, some, most⟩ := lastByte_spec len (by omega)
  have byteIndex : (((i + 1 : Nat) : Int) + 7).tdiv 8 = (i / 8 + 1 : Nat) := by
    rw [Int.tdiv_eq_ediv_of_nonneg (by omega)]
    omega
  have bitIndex : (if ((i + 1 : Nat) : Int).tmod 8 = 0 then 8 else ((i + 1 : Nat) : Int).tmod 8) - 1 =
      (i % 8 : Nat) := by
    rw [Int.tmod_eq_emod_of_nonneg (by omega)]
    split <;> omega
  have start : 8 * (i / 8) + i % 8 = i := by omega
  rw [findFrom, byteIndex, last]
  change (findBits _ _ _ _ _ >>= fun found => _) = _
  rw [bitIndex, Int.toNat_natCast, Int.toNat_natCast]
  by_cases inLast : i / 8 = n
  · have turns : ((if ((i / 8 + 1 : Nat) : Int) = (n : Int) + 1 then (m : Int) else 8) - (i % 8 : Nat)).toNat =
        len - i := by
      rw [if_pos (by omega)]
      omega
    change (findBits s truthval (i / 8 + 1) (i % 8)
      ((if ((i / 8 + 1 : Nat) : Int) = (n : Int) + 1 then (m : Int) else 8) - (i % 8 : Nat)).toNat >>=
        fun found => _) = _
    rw [turns, findBits_spec truthval (by omega) _ (by omega), start]
    cases found : (List.range' i (len - i)).find? (isWanted s truthval) with
    | some j =>
      have place := List.mem_range'_1.mp (List.mem_of_find?_eq_some found)
      change Except.ok (_ : Int) = Except.ok (_ : Int)
      congr 1
      change (((j - 8 * (i / 8) : Nat) : Int) + 2 + (((i / 8 + 1 : Nat) : Int) - 1) * 8) = (j : Int) + 2
      omega
    | none =>
      change (if ((i / 8 + 1 : Nat) : Int) = (n : Int) + 1 then _ else _) = _
      rw [if_pos (by omega)]
      rfl
  · have turns : ((if ((i / 8 + 1 : Nat) : Int) = (n : Int) + 1 then (m : Int) else 8) - (i % 8 : Nat)).toNat =
        8 - i % 8 := by
      rw [if_neg (by omega)]
      omega
    have parts : len - i = (8 - i % 8) + (8 * n + m - 8 * (i / 8 + 1)) := by omega
    have behind : i + (8 - i % 8) = 8 * (i / 8 + 1) := by omega
    change (findBits s truthval (i / 8 + 1) (i % 8)
      ((if ((i / 8 + 1 : Nat) : Int) = (n : Int) + 1 then (m : Int) else 8) - (i % 8 : Nat)).toNat >>=
        fun found => _) = _
    rw [turns, findBits_spec truthval (by omega) _ (by omega), start, parts, ← List.range'_append_1,
      List.find?_append, behind]
    cases found : (List.range' i (8 - i % 8)).find? (isWanted s truthval) with
    | some j =>
      have place := List.mem_range'_1.mp (List.mem_of_find?_eq_some found)
      change Except.ok (_ : Int) = Except.ok (_ : Int)
      congr 1
      change (((j - 8 * (i / 8) : Nat) : Int) + 2 + (((i / 8 + 1 : Nat) : Int) - 1) * 8) = (j : Int) + 2
      omega
    | none =>
      change (if ((i / 8 + 1 : Nat) : Int) = (n : Int) + 1 then _ else findBehind s truthval n m _) = _
      rw [if_neg (by omega), findBehind_spec truthval (by omega) (by omega) most]
      rfl

/-- One more than the first position, counted from one, at or after the given one that holds the given bit,
or zero. -/
def findPosition (v : List Bool) (truth : Bool) (pos : Int) : Int :=
  positionOf ((List.range v.length).find? fun i => decide (pos ≤ i + 1) && v.getD i false == truth)

/-- Positions before the given one are not looked at. -/
theorem findPosition_eq (s : List UInt8) (truthval pos : Int) {i : Nat} (start : max pos 1 = i + 1)
    (inside : i ≤ bitLength s) :
    findPosition (bits s) (decide (truthval ≠ 0)) pos =
      positionOf ((List.range' i (bitLength s - i)).find? (isWanted s truthval)) := by
  have parts : List.range (bitLength s) = List.range' 0 i ++ List.range' i (bitLength s - i) := by
    have whole := List.range'_append_1 (s := 0) (m := i) (n := bitLength s - i)
    rw [Nat.zero_add, show i + (bitLength s - i) = bitLength s by omega] at whole
    rw [List.range_eq_range', whole]
  rw [findPosition, length_bits, parts, List.find?_append, List.find?_eq_none.mpr, Option.none_or]
  · congr 1
    apply List.find?_congr
    intro j there
    have place := List.mem_range'_1.mp there
    rw [bits_getD (by omega), decide_eq_true (by omega), Bool.true_and, isWanted]
    rfl
  · intro j there
    have place := List.mem_range'_1.mp there
    rw [decide_eq_false (by omega)]
    simp

/-- $ZBITFIND finds the first bit. -/
theorem op_fnzbitfind_spec (s : BitString) (truthval pos : Int) :
    op_fnzbitfind s.bytes truthval pos = .ok (findPosition (bits s.bytes) (decide (truthval ≠ 0)) pos) ↔
      bits s.bytes ≠ [] ∨ 1 ≤ pos := by
  have bounds := s.bitLength_bounds
  have present : bits s.bytes ≠ [] ↔ bitLength s.bytes ≠ 0 := by
    rw [Ne, ← List.length_eq_zero_iff, length_bits]
  have run : op_fnzbitfind s.bytes truthval pos =
      if pos < 1 then findFrom s.bytes truthval (bitLength s.bytes) 1
      else if pos > (bitLength s.bytes : Nat) then .ok 0
      else findFrom s.bytes truthval (bitLength s.bytes) pos := by
    rw [op_fnzbitfind, s.checkBitstr]
    change (if _ then _ else _) = _
    rw [s.strLen]
  rw [run, present]
  by_cases low : pos < 1
  · rw [if_pos low]
    by_cases none : bitLength s.bytes = 0
    · have outside : findFrom s.bytes truthval 0 1 = .error .outside := by
        rw [findFrom, lastByte_empty]
        change (findBits s.bytes truthval 1 0 8 >>= fun found => _) = _
        rw [findBits, readByte_outside (by omega)]
        rfl
      rw [none, Int.natCast_zero, outside]
      simp only [reduceCtorEq, ne_eq, not_true_eq_false, false_or, false_iff]
      omega
    · have found := findFrom_spec (s := s.bytes) truthval bounds.1 (i := 0) (by omega)
      rw [findPosition_eq s.bytes truthval pos (i := 0) (by omega) (by omega)]
      exact ⟨fun _ => .inl none, fun _ => found⟩
  · rw [if_neg low]
    obtain ⟨i, position⟩ : ∃ i : Nat, pos = i + 1 := ⟨(pos - 1).toNat, by omega⟩
    refine ⟨fun _ => .inr (by omega), fun _ => ?_⟩
    by_cases beyond : pos > (bitLength s.bytes : Nat)
    · rw [if_pos beyond, findPosition, List.find?_eq_none.mpr]
      · rfl
      · intro j there
        rw [length_bits] at there
        have place := List.mem_range.mp there
        rw [decide_eq_false (by omega)]
        simp
    · rw [if_neg beyond, findPosition_eq s.bytes truthval pos (i := i) (by omega) (by omega), position]
      exact findFrom_spec truthval bounds.1 (by omega)

/-! ## Calls -/

/-- A call of one of the functions. -/
inductive ZBitCall where
  | zbitand (s1 s2 : BitString)
  | zbitor (s1 s2 : BitString)
  | zbitxor (s1 s2 : BitString)
  | zbitnot (s : BitString)
  | zbitset (s : BitString) (pos truthval : Int)
  | zbitget (s : BitString) (pos : Int)
  | zbitcount (s : BitString)
  | zbitfind (s : BitString) (truthval pos : Int)

/-- A call is right when it stays inside its operands and its area and has the result of the operation on
vectors, or refuses a position outside the vector. -/
def ZBitCall.IsRight (stp : Nat → UInt8) : ZBitCall → Prop
  | zbitand s1 s2 => ∃ r : BitString, op_fnzbitand stp s1.bytes s2.bytes = .ok r.bytes ∧
      bits r.bytes = List.zipWith (· && ·) (bits s1.bytes) (bits s2.bytes)
  | zbitor s1 s2 => ∃ r : BitString, op_fnzbitor stp s1.bytes s2.bytes = .ok r.bytes ∧
      bits r.bytes = orExtended (bits s1.bytes) (bits s2.bytes)
  | zbitxor s1 s2 => ∃ r : BitString, op_fnzbitxor stp s1.bytes s2.bytes = .ok r.bytes ∧
      bits r.bytes = List.zipWith (· ^^ ·) (bits s1.bytes) (bits s2.bytes)
  | zbitnot s => ∃ r : BitString, op_fnzbitnot stp s.bytes = .ok r.bytes ∧
      bits r.bytes = (bits s.bytes).map (!·)
  | zbitset s pos truthval =>
      if 1 ≤ pos ∧ pos ≤ (bits s.bytes).length then
        ∃ r : BitString, op_fnzbitset stp s.bytes pos truthval = .ok r.bytes ∧
          bits r.bytes = (bits s.bytes).set (pos - 1).toNat (decide (truthval ≠ 0))
      else op_fnzbitset stp s.bytes pos truthval = .error .ERR_INVBITPOS
  | zbitget s pos =>
      op_fnzbitget s.bytes pos =
        if 1 ≤ pos ∧ pos ≤ (bits s.bytes).length then
          .ok (if (bits s.bytes).getD (pos - 1).toNat false then 1 else 0)
        else .error .ERR_INVBITPOS
  | zbitcount s => op_fnzbitcoun s.bytes = .ok ((bits s.bytes).count true : Nat)
  | zbitfind s truthval pos =>
      op_fnzbitfind s.bytes truthval pos = .ok (findPosition (bits s.bytes) (decide (truthval ≠ 0)) pos)

/-- What a call needs to be right: no set bit behind the end of the shorter operand meets a clear bit of the
longer one, no complement is taken, and nothing is counted or found from the start in an empty string. -/
def ZBitCall.Avoids : ZBitCall → Prop
  | zbitor s1 s2 => PaddingHarmless s1 s2 ∧ PaddingHarmless s2 s1
  | zbitnot _ => False
  | zbitcount s => bits s.bytes ≠ []
  | zbitfind s _ pos => bits s.bytes ≠ [] ∨ 1 ≤ pos
  | zbitand _ _ | zbitxor _ _ | zbitset _ _ _ | zbitget _ _ => True

/-- **A call is right if and only if it avoids the four faults.** -/
theorem zbit_call_is_right_iff (stp : Nat → UInt8) (call : ZBitCall) : call.IsRight stp ↔ call.Avoids := by
  cases call with
  | zbitand s1 s2 => exact iff_of_true (op_fnzbitand_spec stp s1 s2) trivial
  | zbitor s1 s2 => exact op_fnzbitor_spec stp s1 s2
  | zbitxor s1 s2 => exact iff_of_true (op_fnzbitxor_spec stp s1 s2) trivial
  | zbitnot s =>
    refine iff_of_false ?_ id
    rintro ⟨r, run, -⟩
    rw [op_fnzbitnot_outside] at run
    contradiction
  | zbitset s pos truthval =>
    refine iff_of_true ?_ trivial
    rw [ZBitCall.IsRight]
    by_cases inside : 1 ≤ pos ∧ pos ≤ (bits s.bytes).length
    · rw [if_pos inside]
      exact op_fnzbitset_spec stp s truthval inside.1 inside.2
    · rw [if_neg inside]
      exact op_fnzbitset_refuses stp s truthval inside
  | zbitget s pos =>
    refine iff_of_true ?_ trivial
    rw [ZBitCall.IsRight]
    by_cases inside : 1 ≤ pos ∧ pos ≤ (bits s.bytes).length
    · rw [if_pos inside]
      exact op_fnzbitget_spec s inside.1 inside.2
    · rw [if_neg inside]
      exact op_fnzbitget_refuses s inside
  | zbitcount s => exact op_fnzbitcoun_spec s
  | zbitfind s truthval pos => exact op_fnzbitfind_spec s truthval pos

/-- Four bits that are set, followed by four set bits that do not belong to the string. -/
def fourOnes : BitString := ⟨[4, 0xFF], by decide, by decide, by decide, by decide⟩

/-- Sixteen zero bits. -/
def sixteenZeros : BitString := ⟨[0, 0, 0], by decide, by decide, by decide, by decide⟩

/-- The bits behind the shorter operand get into the result. -/
theorem zbitor_takes_padding :
    op_fnzbitor (fun _ => 0) fourOnes.bytes sixteenZeros.bytes = .ok [0, 0xFF, 0] ∧
      ¬ (ZBitCall.zbitor fourOnes sixteenZeros).IsRight fun _ => 0 := by
  have run : op_fnzbitor (fun _ => 0) fourOnes.bytes sixteenZeros.bytes = .ok [0, 0xFF, 0] := rfl
  refine ⟨run, ?_⟩
  rintro ⟨r, runs, right⟩
  rw [run] at runs
  have bytes : [0, 0xFF, 0] = r.bytes := Except.ok.inj runs
  rw [← bytes] at right
  revert right
  decide

end Ydb.ZBit
