import Ydb.ZBit

/-!
# Strings of bits are vectors of bits

The functions compute the operations on vectors, except where they leave their operand or
take bits that do not belong to the shorter operand for bits of it.
-/

namespace Ydb.ZBit

/-! ## Vectors -/

/-- A string that the functions accept. -/
structure BitString where
  bytes : List UInt8
  nonempty : 0 < bytes.length
  short : bytes.length ≤ MAX_STRLEN
  padded : (bytes.getD 0 0).toNat ≤ 7
  fits : (bytes.getD 0 0).toNat ≤ 8 * (bytes.length - 1)

/-- The number of bits. -/
def bitLength (s : List UInt8) : Nat := 8 * (s.length - 1) - (s.getD 0 0).toNat

/-- A bit of a string, whether it belongs to it or not. -/
def bitOf (s : List UInt8) (i : Nat) : Bool := (s.getD (1 + i / 8) 0).toBitVec.getMsbD (i % 8)

/-- The bits. -/
def bits (s : List UInt8) : List Bool := (List.range (bitLength s)).map (bitOf s)

@[simp] theorem length_bits (s : List UInt8) : (bits s).length = bitLength s := by simp [bits]

theorem bits_eq {s : List UInt8} {n : Nat} {p : Nat → Bool} (length : bitLength s = n)
    (same : ∀ i < n, bitOf s i = p i) : bits s = (List.range n).map p := by
  rw [bits, length]
  apply List.map_congr_left
  intro i there
  exact same i (List.mem_range.mp there)

theorem bits_getD {s : List UInt8} {i : Nat} (inside : i < bitLength s) : (bits s).getD i false = bitOf s i := by
  simp [bits, inside]

/-! ## Memory -/

theorem readByte_inside {s : List UInt8} {i : Nat} (inside : i < s.length) : readByte s i = .ok (s.getD i 0) := by
  simp [readByte, inside]

theorem readByte_outside {s : List UInt8} {i : Nat} (behind : s.length ≤ i) :
    readByte s i = .error .outside := by
  simp [readByte, behind]

theorem writeByte_inside {area : List UInt8} {i : Nat} (inside : i < area.length) (byte : UInt8) :
    writeByte area i byte = .ok (area.set i byte) := by
  rw [writeByte, if_pos inside]

@[simp] theorem length_reserved (stp : Nat → UInt8) (n : Int) :
    (ENSURE_STP_FREE_SPACE stp n).length = n.toNat := by
  simp [ENSURE_STP_FREE_SPACE]

theorem getD_set {area : List UInt8} {i : Nat} (inside : i < area.length) (byte : UInt8) (k : Nat) :
    (area.set i byte).getD k 0 = if k = i then byte else area.getD k 0 := by
  simp only [List.getD_eq_getElem?_getD, List.getElem?_set]
  grind

/-- The loop writes each of its positions and no other. -/
theorem fillBytes_inside (byte : Nat → Except ZBitFault UInt8) (value : Nat → UInt8) (turns : Nat)
    (area : List UInt8) (i : Nat) (room : i + turns ≤ area.length)
    (bytes : ∀ k, i ≤ k → k < i + turns → byte k = .ok (value k)) :
    ∃ filled, fillBytes byte area i turns = .ok filled ∧ filled.length = area.length ∧
      ∀ k, filled.getD k 0 = if i ≤ k ∧ k < i + turns then value k else area.getD k 0 := by
  induction turns generalizing area i with
  | zero =>
    refine ⟨area, rfl, rfl, fun k => ?_⟩
    rw [if_neg (by omega)]
  | succ turns ih =>
    have inside : i < area.length := by omega
    obtain ⟨filled, run, length, content⟩ := ih (area.set i (value i)) (i + 1)
      (by rw [List.length_set]; omega) (fun k above below => bytes k (by omega) (by omega))
    refine ⟨filled, ?_, ?_, fun k => ?_⟩
    · rw [fillBytes, bytes i (by omega) (by omega)]
      change (writeByte area i (value i) >>= fun area => fillBytes byte area (i + 1) turns) = _
      rw [writeByte_inside inside]
      exact run
    · rw [length, List.length_set]
    · rw [content, getD_set inside]
      by_cases here : k = i
      · rw [if_neg (by omega), if_pos here, if_pos (by omega), here]
      · by_cases later : i + 1 ≤ k ∧ k < i + 1 + turns
        · rw [if_pos later, if_pos (by omega)]
        · rw [if_neg later, if_neg here, if_neg (by omega)]

/-- The loop faults when it gets behind its operand. -/
theorem fillBytes_outside (byte : Nat → Except ZBitFault UInt8) (value : Nat → UInt8) (behind turns : Nat)
    {area : List UInt8} {i : Nat} (room : behind ≤ area.length) (before : i ≤ behind)
    (reached : behind < i + turns) (bytes : ∀ k < behind, byte k = .ok (value k))
    (fault : byte behind = .error .outside) : fillBytes byte area i turns = .error .outside := by
  induction turns generalizing area i with
  | zero => omega
  | succ turns ih =>
    rw [fillBytes]
    by_cases here : i = behind
    · rw [here, fault]
      rfl
    · have inside : i < area.length := by omega
      rw [bytes i (by omega)]
      change (writeByte area i (value i) >>= fun area => fillBytes byte area (i + 1) turns) = _
      rw [writeByte_inside inside]
      exact ih (by rw [List.length_set]; exact room) (by omega) (by omega)

/-! ## The header -/

theorem BitString.checkBitstr (s : BitString) : checkBitstr s.bytes = .ok (s.bytes.getD 0 0) := by
  have nonempty := s.nonempty
  have padded := s.padded
  rw [ZBit.checkBitstr, if_neg (by omega), readByte_inside nonempty]
  change (if 7 < s.bytes.getD 0 0 then _ else _) = _
  rw [if_neg]
  rw [UInt8.lt_iff_toNat_lt]
  have seven : (7 : UInt8).toNat = 7 := rfl
  omega

theorem BitString.strLen (s : BitString) :
    strLen s.bytes - ((s.bytes.getD 0 0).toNat : Int) = (bitLength s.bytes : Nat) := by
  have nonempty := s.nonempty
  have fits := s.fits
  rw [ZBit.strLen, bitLength]
  omega

/-- The bits of a string end in its last byte. -/
theorem BitString.bitLength_bounds (s : BitString) :
    bitLength s.bytes ≤ 8 * (s.bytes.length - 1) ∧ 8 * (s.bytes.length - 1) ≤ bitLength s.bytes + 7 := by
  have padded := s.padded
  rw [bitLength]
  omega

/-! ## Combining strings -/

theorem combineAt_inside (f : UInt8 → UInt8 → UInt8) {s1 s2 : List UInt8} {i : Nat} (inside1 : i < s1.length)
    (inside2 : i < s2.length) : combineAt f s1 s2 i = .ok (f (s1.getD i 0) (s2.getD i 0)) := by
  rw [combineAt, readByte_inside inside1, readByte_inside inside2]
  rfl

/-- The bytes of a string that is as long as the shorter of two, with the operands combined. -/
structure CombinesShorter (f : UInt8 → UInt8 → UInt8) (s1 s2 : BitString) (area : List UInt8) : Prop where
  length : area.length = (min (bitLength s1.bytes) (bitLength s2.bytes) + 7) / 8 + 1
  padding : (area.getD 0 0).toNat =
    8 * ((min (bitLength s1.bytes) (bitLength s2.bytes) + 7) / 8) - min (bitLength s1.bytes) (bitLength s2.bytes)
  content : ∀ k, 1 ≤ k → k < area.length → area.getD k 0 = f (s1.bytes.getD k 0) (s2.bytes.getD k 0)

theorem combineShorter_spec (stp : Nat → UInt8) (f : UInt8 → UInt8 → UInt8) (s1 s2 : BitString) :
    ∃ area, combineShorter stp f s1.bytes s2.bytes = .ok area ∧ CombinesShorter f s1 s2 area := by
  have bounds1 := s1.bitLength_bounds
  have bounds2 := s2.bitLength_bounds
  have nonempty1 := s1.nonempty
  have nonempty2 := s2.nonempty
  have shorter : (if strLen s1.bytes - ((s1.bytes.getD 0 0).toNat : Int) >
      strLen s2.bytes - ((s2.bytes.getD 0 0).toNat : Int)
      then strLen s2.bytes - ((s2.bytes.getD 0 0).toNat : Int)
      else strLen s1.bytes - ((s1.bytes.getD 0 0).toNat : Int)) =
      (min (bitLength s1.bytes) (bitLength s2.bytes) : Nat) := by
    rw [s1.strLen, s2.strLen]
    split <;> omega
  obtain ⟨len, lenEq⟩ : ∃ len, min (bitLength s1.bytes) (bitLength s2.bytes) = len := ⟨_, rfl⟩
  rw [lenEq] at shorter
  have quotient : ((len : Int) + 7).tdiv 8 = ((len + 7) / 8 : Nat) := by
    rw [Int.tdiv_eq_ediv_of_nonneg (by omega)]
    omega
  obtain ⟨bytes, bytesEq⟩ : ∃ n, (len + 7) / 8 = n := ⟨_, rfl⟩
  rw [bytesEq] at quotient
  have padding : (UInt8.ofInt ((bytes : Int) * 8 - len)).toNat = 8 * bytes - len := by
    rw [UInt8.ofInt, UInt8.toNat_ofNat']
    omega
  obtain ⟨area, run, length, content⟩ := fillBytes_inside (combineAt f s1.bytes s2.bytes)
    (fun k => f (s1.bytes.getD k 0) (s2.bytes.getD k 0)) bytes
    ((ENSURE_STP_FREE_SPACE stp (bytes + 1)).set 0 (UInt8.ofInt ((bytes : Int) * 8 - len))) 1
    (by rw [List.length_set, length_reserved]; omega)
    (fun k above below => combineAt_inside f (by omega) (by omega))
  rw [List.length_set, length_reserved] at length
  refine ⟨area, ?_, ?_⟩
  · rw [combineShorter, s1.checkBitstr, s2.checkBitstr]
    change (writeByte _ _ _ >>= fun area => _) = _
    rw [shorter, quotient, writeByte_inside (by rw [length_reserved]; omega)]
    exact run
  · constructor
    · rw [length, lenEq, bytesEq]
      omega
    · rw [content, if_neg (by omega), getD_set (by rw [length_reserved]; omega), if_pos rfl, padding, lenEq,
        bytesEq]
    · intro k above below
      rw [content, if_pos (by omega)]

variable {f : UInt8 → UInt8 → UInt8} {s1 s2 : BitString} {area : List UInt8}

theorem CombinesShorter.bitLength (combines : CombinesShorter f s1 s2 area) :
    bitLength area = min (bitLength s1.bytes) (bitLength s2.bytes) := by
  rw [ZBit.bitLength, combines.length, combines.padding]
  omega

/-- The string is one that the functions accept. -/
def CombinesShorter.bitString (combines : CombinesShorter f s1 s2 area) : BitString where
  bytes := area
  nonempty := by
    rw [combines.length]
    omega
  short := by
    have bounds := s1.bitLength_bounds
    have short := s1.short
    have nonempty := s1.nonempty
    rw [combines.length]
    omega
  padded := by
    rw [combines.padding]
    omega
  fits := by
    rw [combines.padding, combines.length]
    omega

theorem zipWith_bits (g : Bool → Bool → Bool) (s1 s2 : List UInt8) :
    List.zipWith g (bits s1) (bits s2) =
      (List.range (min (bitLength s1) (bitLength s2))).map fun i => g (bitOf s1 i) (bitOf s2 i) := by
  apply List.ext_getElem
  · simp
  · intro i left right
    simp [bits]

/-- The bits are the operands' bits, combined. -/
theorem CombinesShorter.bits (combines : CombinesShorter f s1 s2 area) {g : Bool → Bool → Bool}
    (bitwise : ∀ a b : UInt8, ∀ i < 8,
      (f a b).toBitVec.getMsbD i = g (a.toBitVec.getMsbD i) (b.toBitVec.getMsbD i)) :
    bits area = List.zipWith g (bits s1.bytes) (bits s2.bytes) := by
  rw [zipWith_bits]
  apply bits_eq combines.bitLength
  intro i inside
  have length := combines.length
  rw [bitOf, combines.content _ (by omega) (by omega), bitwise _ _ _ (Nat.mod_lt _ (by decide))]
  rfl

theorem op_fnzbitand_spec (stp : Nat → UInt8) (s1 s2 : BitString) :
    ∃ r : BitString, op_fnzbitand stp s1.bytes s2.bytes = .ok r.bytes ∧
      bits r.bytes = List.zipWith (· && ·) (bits s1.bytes) (bits s2.bytes) := by
  obtain ⟨area, run, combines⟩ := combineShorter_spec stp (· &&& ·) s1 s2
  refine ⟨combines.bitString, run, combines.bits ?_⟩
  intro a b i inside
  simp

/-- A mask keeps the bits before the padding. -/
theorem paddingMask_keeps : ∀ padding < 8, ∀ i < 8 - padding,
    (paddingMask.getD padding 0).toBitVec.getMsbD i = true := by decide

/-- Clearing the padding of the last byte changes no bit of the string. -/
theorem bits_maskLast {s : List UInt8} (nonempty : 0 < s.length) (padded : (s.getD 0 0).toNat ≤ 7)
    (single : s.length = 1 → s.getD 0 0 = 0) :
    (s.set (s.length - 1) (s.getD (s.length - 1) 0 &&& paddingMask.getD (s.getD 0 0).toNat 0)).getD 0 0 =
        s.getD 0 0 ∧
      bits (s.set (s.length - 1) (s.getD (s.length - 1) 0 &&& paddingMask.getD (s.getD 0 0).toNat 0)) = bits s := by
  have inside : s.length - 1 < s.length := by omega
  have first : (s.set (s.length - 1) (s.getD (s.length - 1) 0 &&& paddingMask.getD (s.getD 0 0).toNat 0)).getD 0 0 =
      s.getD 0 0 := by
    rw [getD_set inside]
    by_cases one : s.length = 1
    · rw [if_pos (by omega), show s.length - 1 = 0 by omega, single one]
      decide
    · rw [if_neg (by omega)]
  refine ⟨first, bits_eq (by rw [bitLength, first, List.length_set, bitLength]) ?_⟩
  intro i within
  rw [bitLength] at within
  rw [bitOf, bitOf, getD_set inside]
  by_cases last : 1 + i / 8 = s.length - 1
  · have kept := paddingMask_keeps _ (Nat.lt_succ_of_le padded) (i % 8) (by omega)
    rw [if_pos last, last, UInt8.toBitVec_and, BitVec.getMsbD_and, kept, Bool.and_true]
  · rw [if_neg last]

/-- $ZBITXOR bit by bit. -/
theorem op_fnzbitxor_spec (stp : Nat → UInt8) (s1 s2 : BitString) :
    ∃ r : BitString, op_fnzbitxor stp s1.bytes s2.bytes = .ok r.bytes ∧
      bits r.bytes = List.zipWith (· ^^ ·) (bits s1.bytes) (bits s2.bytes) := by
  obtain ⟨area, run, combines⟩ := combineShorter_spec stp (· ^^^ ·) s1 s2
  have combined : bits area = List.zipWith (· ^^ ·) (bits s1.bytes) (bits s2.bytes) := by
    apply combines.bits
    intro a b i inside
    simp
  have nonempty : 0 < area.length := combines.bitString.nonempty
  have inside : area.length - 1 < area.length := by omega
  obtain ⟨first, same⟩ := bits_maskLast nonempty combines.bitString.padded (fun one => by
    have fits : (area.getD 0 0).toNat ≤ 8 * (area.length - 1) := combines.bitString.fits
    apply UInt8.toNat_inj.mp
    change (area.getD 0 0).toNat = 0
    omega)
  refine ⟨⟨area.set (area.length - 1)
    (area.getD (area.length - 1) 0 &&& paddingMask.getD (area.getD 0 0).toNat 0), ?_, ?_, ?_, ?_⟩, ?_, ?_⟩
  · rw [List.length_set]
    exact nonempty
  · rw [List.length_set]
    exact combines.bitString.short
  · rw [first]
    exact combines.bitString.padded
  · rw [first, List.length_set]
    exact combines.bitString.fits
  · rw [op_fnzbitxor, run]
    change (readByte area 0 >>= fun byte_1 => readByte area (area.length - 1) >>= fun byte_n =>
      writeByte area (area.length - 1) (byte_n &&& paddingMask.getD byte_1.toNat 0)) = _
    rw [readByte_inside nonempty, readByte_inside inside]
    exact writeByte_inside inside _
  · rw [same, combined]

/-! ## The longer operand -/

theorem getD_behind {s : List UInt8} {k : Nat} (behind : s.length ≤ k) : s.getD k 0 = 0 := by
  rw [List.getD_eq_getElem?_getD, List.getElem?_eq_none behind]
  rfl

/-- The two loops write the combined bytes and then those of the longer operand. -/
theorem orBytes_inside (s1 s2 long area : List UInt8) (n n0 : Nat) (room : area.length = n + 1)
    (shorter : n0 ≤ n) (inside1 : n0 < s1.length) (inside2 : n0 < s2.length) (insideLong : n < long.length)
    (rest : ∀ k, n0 < k → long.getD k 0 = s1.getD k 0 ||| s2.getD k 0)
    (behind : ∀ k, n < k → s1.getD k 0 ||| s2.getD k 0 = 0) :
    ∃ filled, (fillBytes (combineAt (· ||| ·) s1 s2) area 1 n0 >>= fun area =>
        if n ≠ n0 then fillBytes (readByte long) area (1 + n0) (n - n0) else .ok area) = .ok filled ∧
      filled.length = n + 1 ∧ filled.getD 0 0 = area.getD 0 0 ∧
      ∀ k, 1 ≤ k → filled.getD k 0 = s1.getD k 0 ||| s2.getD k 0 := by
  obtain ⟨front, run, length, content⟩ := fillBytes_inside (combineAt (· ||| ·) s1 s2)
    (fun k => s1.getD k 0 ||| s2.getD k 0) n0 area 1 (by omega)
    (fun k above below => combineAt_inside _ (by omega) (by omega))
  rw [run]
  change ∃ filled, (if n ≠ n0 then fillBytes (readByte long) front (1 + n0) (n - n0) else .ok front) = _ ∧ _
  by_cases longer : n ≠ n0
  · obtain ⟨filled, copied, whole, bytes⟩ := fillBytes_inside (readByte long) (fun k => long.getD k 0) (n - n0) front
      (1 + n0) (by omega) (fun k above below => readByte_inside (by omega))
    refine ⟨filled, by rw [if_pos longer]; exact copied, by omega, ?_, ?_⟩
    · rw [bytes, if_neg (by omega), content, if_neg (by omega)]
    · intro k above
      rw [bytes]
      by_cases copies : 1 + n0 ≤ k ∧ k < 1 + n0 + (n - n0)
      · rw [if_pos copies, rest k (by omega)]
      · rw [if_neg copies, content]
        by_cases combined : 1 ≤ k ∧ k < 1 + n0
        · rw [if_pos combined]
        · rw [if_neg combined, behind k (by omega), getD_behind (by omega)]
  · refine ⟨front, by rw [if_neg longer], by omega, ?_, ?_⟩
    · rw [content, if_neg (by omega)]
    · intro k above
      rw [content]
      by_cases combined : 1 ≤ k ∧ k < 1 + n0
      · rw [if_pos combined]
      · rw [if_neg combined, behind k (by omega), getD_behind (by omega)]

/-- The result has the first byte of the longer operand and the bytes of both. -/
theorem op_fnzbitor_bytes (stp : Nat → UInt8) (s1 s2 : BitString) :
    ∃ area, op_fnzbitor stp s1.bytes s2.bytes = .ok area ∧
      area.length = max s1.bytes.length s2.bytes.length ∧
      area.getD 0 0 = (if bitLength s1.bytes < bitLength s2.bytes then s2 else s1).bytes.getD 0 0 ∧
      ∀ k, 1 ≤ k → area.getD k 0 = s1.bytes.getD k 0 ||| s2.bytes.getD k 0 := by
  have bounds1 := s1.bitLength_bounds
  have bounds2 := s2.bitLength_bounds
  have nonempty1 := s1.nonempty
  have nonempty2 := s2.nonempty
  have short1 : (decide (strLen s1.bytes - ((s1.bytes.getD 0 0).toNat : Int) <
      strLen s2.bytes - ((s2.bytes.getD 0 0).toNat : Int))) =
      decide (bitLength s1.bytes < bitLength s2.bytes) := by
    rw [s1.strLen, s2.strLen]
    exact decide_eq_decide.mpr (by omega)
  rw [op_fnzbitor, s1.checkBitstr, s2.checkBitstr]
  change ∃ area, (writeByte _ _ _ >>= fun area => _) = _ ∧ _
  rw [short1]
  by_cases shorter : bitLength s1.bytes < bitLength s2.bytes
  · simp only [shorter, decide_true, if_true]
    rw [writeByte_inside (by rw [length_reserved]; omega)]
    obtain ⟨area, run, length, first, content⟩ := orBytes_inside s1.bytes s2.bytes s2.bytes
      ((ENSURE_STP_FREE_SPACE stp ((s2.bytes.length - 1 : Nat) + 1)).set 0 (s2.bytes.getD 0 0))
      (s2.bytes.length - 1) (s1.bytes.length - 1)
      (by rw [List.length_set, length_reserved]; omega) (by omega) (by omega) (by omega) (by omega)
      (fun k later => by rw [getD_behind (s := s1.bytes) (by omega), UInt8.zero_or])
      (fun k later => by
        rw [getD_behind (s := s1.bytes) (by omega), getD_behind (s := s2.bytes) (by omega), UInt8.zero_or])
    refine ⟨area, run, by omega, ?_, content⟩
    rw [first, getD_set (by rw [length_reserved]; omega), if_pos rfl]
  · simp only [shorter, decide_false, if_false, Bool.false_eq_true]
    rw [writeByte_inside (by rw [length_reserved]; omega)]
    obtain ⟨area, run, length, first, content⟩ := orBytes_inside s1.bytes s2.bytes s1.bytes
      ((ENSURE_STP_FREE_SPACE stp ((s1.bytes.length - 1 : Nat) + 1)).set 0 (s1.bytes.getD 0 0))
      (s1.bytes.length - 1) (s2.bytes.length - 1)
      (by rw [List.length_set, length_reserved]; omega) (by omega) (by omega) (by omega) (by omega)
      (fun k later => by rw [getD_behind (s := s2.bytes) (by omega), UInt8.or_zero])
      (fun k later => by
        rw [getD_behind (s := s1.bytes) (by omega), getD_behind (s := s2.bytes) (by omega), UInt8.zero_or])
    refine ⟨area, run, by omega, ?_, content⟩
    rw [first, getD_set (by rw [length_reserved]; omega), if_pos rfl]

/-- The pointwise or of two vectors, the shorter one extended by zeros. -/
def orExtended (v w : List Bool) : List Bool :=
  (List.range (max v.length w.length)).map fun i => v.getD i false || w.getD i false

/-- No bit that does not belong to the first string meets a clear bit of the second. -/
def PaddingHarmless (s1 s2 : BitString) : Prop :=
  ∀ i, bitLength s1.bytes ≤ i → i < bitLength s2.bytes → bitOf s1.bytes i = true → bitOf s2.bytes i = true

theorem bits_getD_eq (s : List UInt8) (i : Nat) :
    (bits s).getD i false = (decide (i < bitLength s) && bitOf s i) := by
  by_cases inside : i < bitLength s
  · rw [bits_getD inside, decide_eq_true inside, Bool.true_and]
  · simp [bits, inside]

/-- $ZBITOR byte by byte. -/
theorem op_fnzbitor_spec (stp : Nat → UInt8) (s1 s2 : BitString) :
    (∃ r : BitString, op_fnzbitor stp s1.bytes s2.bytes = .ok r.bytes ∧
      bits r.bytes = orExtended (bits s1.bytes) (bits s2.bytes)) ↔
        PaddingHarmless s1 s2 ∧ PaddingHarmless s2 s1 := by
  have bounds1 := s1.bitLength_bounds
  have bounds2 := s2.bitLength_bounds
  have nonempty1 := s1.nonempty
  have nonempty2 := s2.nonempty
  have fits1 := s1.fits
  have fits2 := s2.fits
  have padded1 := s1.padded
  have padded2 := s2.padded
  have short1 := s1.short
  have short2 := s2.short
  obtain ⟨area, run, length, first, content⟩ := op_fnzbitor_bytes stp s1 s2
  have length1 : bitLength s1.bytes = 8 * (s1.bytes.length - 1) - (s1.bytes.getD 0 0).toNat := rfl
  have length2 : bitLength s2.bytes = 8 * (s2.bytes.length - 1) - (s2.bytes.getD 0 0).toNat := rfl
  have whole : bitLength area = max (bitLength s1.bytes) (bitLength s2.bytes) := by
    rw [bitLength, first, length]
    split <;> omega
  have padding : (area.getD 0 0).toNat ≤ 7 ∧ (area.getD 0 0).toNat ≤ 8 * (area.length - 1) := by
    rw [first, length]
    split <;> omega
  have each : ∀ i, bitOf area i = (bitOf s1.bytes i || bitOf s2.bytes i) := by
    intro i
    rw [bitOf, content _ (by omega), UInt8.toBitVec_or, BitVec.getMsbD_or]
    rfl
  have same : bits area = orExtended (bits s1.bytes) (bits s2.bytes) ↔
      ∀ i < max (bitLength s1.bytes) (bitLength s2.bytes), (bitOf s1.bytes i || bitOf s2.bytes i) =
        (decide (i < bitLength s1.bytes) && bitOf s1.bytes i ||
          (decide (i < bitLength s2.bytes) && bitOf s2.bytes i)) := by
    rw [orExtended, length_bits, length_bits, bits, whole, List.map_inj_left]
    simp only [List.mem_range, each, bits_getD_eq]
  constructor
  · rintro ⟨r, runs, right⟩
    rw [run] at runs
    cases runs
    have pointwise := same.mp right
    constructor
    · intro i above below set
      have here := pointwise i (by omega)
      rw [decide_eq_false (by omega : ¬ i < bitLength s1.bytes), decide_eq_true below, set] at here
      simpa using here.symm
    · intro i above below set
      have here := pointwise i (by omega)
      rw [decide_eq_false (by omega : ¬ i < bitLength s2.bytes), decide_eq_true below, set] at here
      simpa using here.symm
  · rintro ⟨harmless1, harmless2⟩
    refine ⟨⟨area, by omega, by omega, padding.1, padding.2⟩, run, same.mpr ?_⟩
    intro i inside
    have left := harmless1 i
    have right := harmless2 i
    by_cases within1 : i < bitLength s1.bytes
    · by_cases within2 : i < bitLength s2.bytes
      · rw [decide_eq_true within1, decide_eq_true within2, Bool.true_and, Bool.true_and]
      · have covered := right (by omega) within1
        rw [decide_eq_true within1, decide_eq_false within2]
        cases there : bitOf s2.bytes i with
        | false => simp
        | true => simp [covered there]
    · have covered := left (by omega) (by omega)
      rw [decide_eq_false within1, decide_eq_true (by omega : i < bitLength s2.bytes)]
      cases there : bitOf s1.bytes i with
      | false => simp
      | true => simp [covered there]

/-- The complement is always finished with an access outside. -/
theorem op_fnzbitnot_outside (stp : Nat → UInt8) (s : BitString) :
    op_fnzbitnot stp s.bytes = .error .outside := by
  have nonempty := s.nonempty
  rw [op_fnzbitnot, s.checkBitstr]
  change (writeByte _ _ _ >>= fun area => _) = _
  rw [writeByte_inside (by rw [length_reserved]; omega)]
  apply fillBytes_outside (complementAt s.bytes) (fun k => ~~~s.bytes.getD k 0) s.bytes.length
  · rw [List.length_set, length_reserved]
    omega
  · exact nonempty
  · omega
  · intro k inside
    rw [complementAt, readByte_inside inside]
    rfl
  · rw [complementAt, readByte_outside (Nat.le_refl _)]
    rfl

end Ydb.ZBit
