import Mathlib.Data.Nat.Find
import Mathlib.Data.List.Induction
import Ydb.SeqnoTable

/-!
# The boundary of a rollback is right unless the range of the table leaves 64 bits

The first pass finds the extremes of the table. The array of bits then holds the table
relative to its least sequence number, and the search finds the first clear bit.
-/

namespace Ydb.SeqnoTable

open Lib

/-! ## The first pass -/

/-- The least sequence number of a broken transaction, or the maximum if there is none. -/
structure LeastBroken (multis : List multi_struct) (seqno : UInt64) : Prop where
  below : ∀ m ∈ multis, 0 < m.partner → seqno ≤ m.token
  attained : (∃ m ∈ multis, 0 < m.partner ∧ m.token = seqno) ∨
    seqno = MAXUINT8 ∧ ∀ m ∈ multis, ¬ 0 < m.partner

/-- The range is the one of these entries. -/
structure Spans (multis : List multi_struct) (range : SeqnoRange) : Prop where
  least : ∀ m ∈ multis, range.min_resolve_seqno ≤ m.token
  greatest : ∀ m ∈ multis, m.token ≤ range.max_resolve_seqno
  attained : multis = [] ∧ range.min_resolve_seqno = MAXUINT8 ∧ range.max_resolve_seqno = 0 ∨
    (∃ m ∈ multis, m.token = range.min_resolve_seqno) ∧ ∃ m ∈ multis, m.token = range.max_resolve_seqno
  broken : LeastBroken multis range.min_brkn_seqno

theorem le_MAXUINT8 (seqno : UInt64) : seqno ≤ MAXUINT8 := by
  rw [UInt64.le_iff_toNat_le]
  have bound := seqno.toNat_lt
  have largest : MAXUINT8.toNat = 2 ^ 64 - 1 := by decide
  omega

theorem LeastBroken.note {multis : List multi_struct} {seqno : UInt64} (broken : LeastBroken multis seqno)
    (multi : multi_struct) :
    LeastBroken (multis ++ [multi])
      (if 0 < multi.partner ∧ multi.token < seqno then multi.token else seqno) := by
  by_cases lower : 0 < multi.partner ∧ multi.token < seqno
  · rw [if_pos lower]
    constructor
    · intro m there lacks
      rcases List.mem_append.mp there with old | new
      · exact UInt64.le_trans (UInt64.le_of_lt lower.2) (broken.below m old lacks)
      · rw [List.mem_singleton.mp new]
        exact UInt64.le_refl _
    · exact .inl ⟨multi, by simp, lower.1, rfl⟩
  · rw [if_neg lower]
    constructor
    · intro m there lacks
      rcases List.mem_append.mp there with old | new
      · exact broken.below m old lacks
      · rw [List.mem_singleton.mp new] at lacks ⊢
        exact UInt64.not_lt.mp fun less => lower ⟨lacks, less⟩
    · by_cases lacks : 0 < multi.partner
      · rcases broken.attained with ⟨m, old, isBroken, same⟩ | ⟨largest, -⟩
        · exact .inl ⟨m, List.mem_append_left _ old, isBroken, same⟩
        · have high : seqno ≤ multi.token := UInt64.not_lt.mp fun less => lower ⟨lacks, less⟩
          have same : multi.token = seqno := by
            apply UInt64.le_antisymm _ high
            rw [largest]
            exact le_MAXUINT8 _
          exact .inl ⟨multi, by simp, lacks, same⟩
      · rcases broken.attained with ⟨m, old, isBroken, same⟩ | ⟨largest, whole⟩
        · exact .inl ⟨m, List.mem_append_left _ old, isBroken, same⟩
        · refine .inr ⟨largest, fun m there => ?_⟩
          rcases List.mem_append.mp there with old | new
          · exact whole m old
          · rw [List.mem_singleton.mp new]
            exact lacks

theorem Spans.note {multis : List multi_struct} {range : SeqnoRange} (spans : Spans multis range)
    (multi : multi_struct) : Spans (multis ++ [multi]) (noteSeqno range multi) := by
  have largest := le_MAXUINT8 multi.token
  have positive : (0 : UInt64) ≤ multi.token := by
    rw [UInt64.le_iff_toNat_le]
    exact Nat.zero_le _
  constructor
  · intro m there
    have old := spans.least m
    simp only [noteSeqno]
    grind
  · intro m there
    have old := spans.greatest m
    simp only [noteSeqno]
    grind
  · right
    have here : multi ∈ multis ++ [multi] := by simp
    have attained := spans.attained
    constructor
    · by_cases lower : multi.token < range.min_resolve_seqno
      · exact ⟨multi, here, by simp [noteSeqno, lower]⟩
      · grind [noteSeqno]
    · by_cases higher : multi.token > range.max_resolve_seqno
      · exact ⟨multi, here, by simp [noteSeqno, higher]⟩
      · grind [noteSeqno]
  · exact spans.broken.note multi

theorem seqnoRange_spans (multis : List multi_struct) : Spans multis (seqnoRange multis) := by
  induction multis using List.reverseRecOn with
  | nil =>
    constructor
    · intro m there
      exact absurd there List.not_mem_nil
    · intro m there
      exact absurd there List.not_mem_nil
    · exact .inl ⟨rfl, rfl, rfl⟩
    · constructor
      · intro m there
        exact absurd there List.not_mem_nil
      · exact .inr ⟨rfl, fun m there => absurd there List.not_mem_nil⟩
  | append_singleton multis multi ih =>
    rw [seqnoRange, List.foldl_concat]
    exact ih.note multi

/-! ## Setting the bits -/

/-- The bit of a sequence number in the array. -/
def seqnoBit (min_resolve_seqno : UInt64) (m : multi_struct) : Nat :=
  m.token.toNat - min_resolve_seqno.toNat

theorem setSeqno_eq {min_resolve_seqno : UInt64} {m : multi_struct} (above : min_resolve_seqno ≤ m.token)
    (seq_arr : List UInt8) :
    setSeqno min_resolve_seqno seq_arr m =
      if seqnoBit min_resolve_seqno m / 8 < seq_arr.length then
        some (setBit seq_arr (seqnoBit min_resolve_seqno m))
      else none := by
  have index : (m.token - min_resolve_seqno).toNat = seqnoBit min_resolve_seqno m :=
    UInt64.toNat_sub_of_le _ _ above
  have byte : ((m.token - min_resolve_seqno) >>> 3).toNat = seqnoBit min_resolve_seqno m / 8 := by
    rw [UInt64.toNat_shiftRight, index]
    exact Nat.shiftRight_eq_div_pow _ _
  have low : ((m.token - min_resolve_seqno) &&& 7).toNat = seqnoBit min_resolve_seqno m % 8 := by
    rw [UInt64.toNat_and, index]
    exact Nat.and_two_pow_sub_one_eq_mod _ 3
  have bit : ((m.token - min_resolve_seqno) &&& 7).toUInt8 =
      UInt8.ofNat (seqnoBit min_resolve_seqno m % 8) := by
    rw [← low]
    rfl
  have shifted : ∀ k < 8, (1 : UInt8) <<< UInt8.ofNat k = ⟨BitVec.twoPow 8 k⟩ := by decide
  simp only [setSeqno, byte, bit, shifted _ (Nat.mod_lt _ (by decide)), setBit]
  rfl

/-- All sequence numbers get their bits when the array has room for them. -/
theorem setSeqnos_bits {min_resolve_seqno : UInt64} {multis : List multi_struct}
    (above : ∀ m ∈ multis, min_resolve_seqno ≤ m.token) (seq_arr : List UInt8)
    (room : ∀ m ∈ multis, seqnoBit min_resolve_seqno m < 8 * seq_arr.length) :
    ∃ filled, multis.foldlM (setSeqno min_resolve_seqno) seq_arr = some filled ∧
      filled.length = seq_arr.length ∧
      ∀ j, bitAt filled j = true ↔
        bitAt seq_arr j = true ∨ ∃ m ∈ multis, seqnoBit min_resolve_seqno m = j := by
  induction multis generalizing seq_arr with
  | nil => exact ⟨seq_arr, rfl, rfl, by simp⟩
  | cons m multis ih =>
    have stored := room m List.mem_cons_self
    have written : setSeqno min_resolve_seqno seq_arr m =
        some (setBit seq_arr (seqnoBit min_resolve_seqno m)) := by
      rw [setSeqno_eq (above m List.mem_cons_self), if_pos (by omega)]
    obtain ⟨filled, run, length, bits⟩ := ih
      (fun m there => above m (List.mem_cons_of_mem _ there)) (setBit seq_arr (seqnoBit min_resolve_seqno m))
      (fun m there => by
        rw [length_setBit]
        exact room m (List.mem_cons_of_mem _ there))
    refine ⟨filled, ?_, ?_, ?_⟩
    · rw [List.foldlM_cons, written]
      exact run
    · rw [length, length_setBit]
    · intro j
      rw [bits, bitAt_setBit stored]
      simp only [Bool.or_eq_true, decide_eq_true_eq, List.mem_cons, exists_eq_or_imp]
      grind

/-! ## The first clear bit -/

/-- The first bit that is clear. -/
def FirstClear (bytes : List UInt8) (j : Nat) : Prop :=
  (∀ i < j, bitAt bytes i = true) ∧ bitAt bytes j = false

theorem FirstClear.le {bytes : List UInt8} {j i : Nat} (first : FirstClear bytes j)
    (clear : bitAt bytes i = false) : j ≤ i := by
  by_contra less
  have set := first.1 i (by omega)
  rw [clear] at set
  contradiction

/-- Step 1 passes only ones. -/
theorem skipWords_ones {seq_arr : List UInt8} (ptr left : Nat)
    (ones : ∀ j < 64 * ptr, bitAt seq_arr j = true) :
    ∀ j < 64 * skipWords seq_arr ptr left, bitAt seq_arr j = true := by
  induction left generalizing ptr with
  | zero => exact ones
  | succ left ih =>
    rw [skipWords]
    by_cases full : word (seq_arr.drop (8 * ptr)) = BitVec.allOnes 64
    · rw [if_pos full]
      apply ih
      intro j inside
      by_cases before : j < 64 * ptr
      · exact ones j before
      · have bit := (word_eq_allOnes_iff _).mp full (j - 64 * ptr) (by omega)
        rw [bitAt_drop] at bit
        have place : 8 * (8 * ptr) + (j - 64 * ptr) = j := by omega
        rwa [place] at bit
    · rw [if_neg full]
      exact ones

/-- Step 2 passes only ones, and ends at its bound or at another byte. -/
theorem skipBytes_ones {seq_arr : List UInt8} (index left : Nat)
    (ones : ∀ j < 8 * index, bitAt seq_arr j = true) :
    (∀ j < 8 * skipBytes seq_arr index left, bitAt seq_arr j = true) ∧
      (skipBytes seq_arr index left = index + left ∨
        seq_arr.getD (skipBytes seq_arr index left) 0 ≠ 0xFF) := by
  induction left generalizing index with
  | zero => exact ⟨ones, .inl rfl⟩
  | succ left ih =>
    rw [skipBytes]
    by_cases full : seq_arr.getD index 0 = 0xFF
    · rw [if_pos full]
      obtain ⟨passed, ends⟩ := ih (index + 1) (by
        intro j inside
        by_cases before : j < 8 * index
        · exact ones j before
        · have place : j / 8 = index := by omega
          exact bitAt_of_byte_ones (by rw [place]; exact full))
      refine ⟨passed, ?_⟩
      rcases ends with whole | other
      · exact .inl (by omega)
      · exact .inr other
    · rw [if_neg full]
      exact ⟨ones, .inr full⟩

/-- The table holds the first clear bit of every byte that has one. -/
theorem first_zerobit_position_spec : ∀ n < 255,
    (first_zerobit_position.getD n 0).toNat < 8 ∧
      (first_zerobit_position.getD n 0) = (first_zerobit_position.getD n 0).toNat ∧
      (UInt8.ofNat n).toBitVec.getLsbD (first_zerobit_position.getD n 0).toNat = false ∧
      ∀ i < (first_zerobit_position.getD n 0).toNat, (UInt8.ofNat n).toBitVec.getLsbD i = true := by
  decide +kernel

/-- The position of the first clear bit of a byte that is not all ones, in the array. -/
theorem firstClear_of_byte {seq_arr : List UInt8} {index : Nat}
    (ones : ∀ j < 8 * index, bitAt seq_arr j = true) (other : seq_arr.getD index 0 ≠ 0xFF) :
    ∃ k < 8, first_zerobit_position.getD (seq_arr.getD index 0).toNat 0 = (k : Nat) ∧
      FirstClear seq_arr (8 * index + k) := by
  have small : (seq_arr.getD index 0).toNat < 255 := by
    have bound := (seq_arr.getD index 0).toNat_lt
    by_contra large
    apply other
    apply UInt8.toNat_inj.mp
    have full : (0xFF : UInt8).toNat = 255 := rfl
    omega
  obtain ⟨inside, value, clear, set⟩ := first_zerobit_position_spec _ small
  rw [UInt8.ofNat_toNat] at clear set
  refine ⟨_, inside, value, ?_, ?_⟩
  · intro i before
    by_cases earlier : i < 8 * index
    · exact ones i earlier
    · have byte : i / 8 = index := by omega
      rw [bitAt, byte]
      exact set _ (by omega)
  · rw [bitAt, show (8 * index + _) / 8 = index by omega, Nat.mul_add_mod, Nat.mod_eq_of_lt inside]
    exact clear

/-- The search finds the first clear bit of an array that is clear from some place on. -/
theorem zerobitOffset_firstClear {seq_arr : List UInt8} {span : Nat} (seq_arr_size : Nat)
    (clear : ∀ j, span ≤ j → bitAt seq_arr j = false) (fits : span ≤ 8 * seq_arr_size) (small : span < 2 ^ 64) :
    FirstClear seq_arr (zerobitOffset seq_arr seq_arr_size).toNat := by
  have words : ∀ j < 64 * skipWords seq_arr 0 (seq_arr.length / 8), bitAt seq_arr j = true :=
    skipWords_ones 0 _ (by simp)
  obtain ⟨ones, ends⟩ := skipBytes_ones (8 * skipWords seq_arr 0 (seq_arr.length / 8))
    (seq_arr_size - 8 * skipWords seq_arr 0 (seq_arr.length / 8)) (fun j inside => words j (by omega))
  rw [zerobitOffset]
  generalize skipBytes seq_arr (8 * skipWords seq_arr 0 (seq_arr.length / 8))
    (seq_arr_size - 8 * skipWords seq_arr 0 (seq_arr.length / 8)) = index at ones ends ⊢
  have bounded : 8 * index ≤ span := by
    by_contra beyond
    have set := ones span (by omega)
    rw [clear span le_rfl] at set
    contradiction
  have start : (UInt64.ofNat (index * 8)).toNat = 8 * index := by
    rw [UInt64.toNat_ofNat', Nat.mod_eq_of_lt (by omega), Nat.mul_comm]
  by_cases before : index < seq_arr_size
  · have other : seq_arr.getD index 0 ≠ 0xFF := by
      rcases ends with whole | other
      · omega
      · exact other
    obtain ⟨k, inside, value, first⟩ := firstClear_of_byte ones other
    have within : 8 * index + k ≤ span := first.le (clear span le_rfl)
    have entry : (UInt64.ofInt (k : Nat)).toNat = k := by
      rw [UInt64.ofInt, UInt64.toNat_ofNat']
      omega
    simp only [if_pos before, value]
    rw [UInt64.toNat_add, start, entry, Nat.mod_eq_of_lt (by omega)]
    exact first
  · simp only [if_neg before, start]
    exact ⟨ones, clear _ (by omega)⟩

/-! ## The first missing sequence number -/

theorem exists_missing (multis : List multi_struct) (start : Nat) :
    ∃ n, start ≤ n ∧ ∀ m ∈ multis, m.token.toNat ≠ n := by
  refine ⟨start + 2 ^ 64, by omega, fun m _ => ?_⟩
  have bound := m.token.toNat_lt
  omega

/-- The first sequence number from a start on that the table lacks. -/
def firstMissing (multis : List multi_struct) (start : Nat) : Nat := Nat.find (exists_missing multis start)

theorem firstMissing_eq {multis : List multi_struct} {start n : Nat} (above : start ≤ n)
    (missing : ∀ m ∈ multis, m.token.toNat ≠ n)
    (before : ∀ k, start ≤ k → k < n → ∃ m ∈ multis, m.token.toNat = k) : firstMissing multis start = n := by
  apply (Nat.find_eq_iff _).mpr
  refine ⟨⟨above, missing⟩, ?_⟩
  rintro k less ⟨from_start, lacks⟩
  obtain ⟨m, there, same⟩ := before k from_start less
  exact lacks m there same

theorem le_firstMissing (multis : List multi_struct) (start : Nat) : start ≤ firstMissing multis start :=
  (Nat.find_spec (exists_missing multis start)).1

theorem firstMissing_le {multis : List multi_struct} {start n : Nat} (above : start ≤ n)
    (missing : ∀ m ∈ multis, m.token.toNat ≠ n) : firstMissing multis start ≤ n :=
  Nat.find_min' _ ⟨above, missing⟩

/-- A sequence number that the table lacks is itself the first missing one. -/
theorem firstMissing_self {multis : List multi_struct} {seqno : UInt64}
    (missing : ∀ m ∈ multis, m.token ≠ seqno) : firstMissing multis seqno.toNat = seqno.toNat := by
  apply firstMissing_eq le_rfl
  · intro m there same
    exact missing m there (UInt64.toNat_inj.mp same)
  · intro k above before
    omega

/-! ## The search -/

theorem DIVIDE_ROUND_UP_toNat (value : UInt64) (fits : value.toNat + 7 < 2 ^ 64) :
    (DIVIDE_ROUND_UP value 8).toNat = (value.toNat + 7) / 8 := by
  have seven : ((8 : UInt64) - 1).toNat = 7 := rfl
  have eight : (8 : UInt64).toNat = 8 := rfl
  rw [DIVIDE_ROUND_UP, UInt64.toNat_div, UInt64.toNat_add, seven, eight, Nat.mod_eq_of_lt fits]

theorem ROUND_UP_toNat (value : UInt64) (fits : value.toNat + 7 < 2 ^ 64) :
    (ROUND_UP value 8).toNat = (value.toNat + 7) / 8 * 8 := by
  have eight : (8 : UInt64).toNat = 8 := rfl
  rw [ROUND_UP, UInt64.toNat_mul, DIVIDE_ROUND_UP_toNat value fits, eight, Nat.mod_eq_of_lt (by omega)]

variable {multis : List multi_struct} {range : SeqnoRange}

/-- The number of sequence numbers in the range. -/
theorem span_toNat (ordered : range.min_resolve_seqno ≤ range.max_resolve_seqno) :
    (range.max_resolve_seqno - range.min_resolve_seqno + 1).toNat =
      (range.max_resolve_seqno.toNat - range.min_resolve_seqno.toNat + 1) % 2 ^ 64 := by
  rw [UInt64.toNat_add, UInt64.toNat_sub_of_le _ _ ordered]
  rfl

/-- A range of a size that leaves 64 bits leaves no room for the bits. -/
theorem findGap_none (spans : Spans multis range) (entry : multi_struct) (there : entry ∈ multis)
    (leaves : range.min_resolve_seqno.toNat + 2 ^ 64 ≤ range.max_resolve_seqno.toNat + 8) :
    findGap multis range = none := by
  have ordered := UInt64.le_trans (spans.least entry there) (spans.greatest entry there)
  have bound := range.max_resolve_seqno.toNat_lt
  have size : (DIVIDE_ROUND_UP (range.max_resolve_seqno - range.min_resolve_seqno + 1) 8).toNat = 0 := by
    have seven : ((8 : UInt64) - 1).toNat = 7 := rfl
    have eight : (8 : UInt64).toNat = 8 := rfl
    rw [DIVIDE_ROUND_UP, UInt64.toNat_div, UInt64.toNat_add, span_toNat ordered, seven, eight]
    omega
  have empty : (ROUND_UP (DIVIDE_ROUND_UP (range.max_resolve_seqno - range.min_resolve_seqno + 1) 8) 8).toNat
      = 0 := by
    rw [ROUND_UP_toNat _ (by omega), size]
  cases multis with
  | nil => exact absurd there List.not_mem_nil
  | cons m multis =>
    have refused : setSeqno range.min_resolve_seqno [] m = none := by
      rw [setSeqno_eq (spans.least m List.mem_cons_self), if_neg (by simp)]
    simp only [findGap, empty, List.replicate_zero, List.foldlM_cons, refused]
    rfl

/-- Otherwise the search finds the first missing sequence number, in 64 bits. -/
theorem findGap_first (spans : Spans multis range) (entry : multi_struct) (there : entry ∈ multis)
    (stays : range.max_resolve_seqno.toNat + 8 < range.min_resolve_seqno.toNat + 2 ^ 64) :
    ∃ gap, findGap multis range = some gap ∧
      gap.toNat = firstMissing multis range.min_resolve_seqno.toNat % 2 ^ 64 := by
  have ordered := UInt64.le_trans (spans.least entry there) (spans.greatest entry there)
  have ordered' := UInt64.le_iff_toNat_le.mp ordered
  have span : (range.max_resolve_seqno - range.min_resolve_seqno + 1).toNat =
      range.max_resolve_seqno.toNat - range.min_resolve_seqno.toNat + 1 := by
    rw [span_toNat ordered, Nat.mod_eq_of_lt (by omega)]
  have size := DIVIDE_ROUND_UP_toNat (range.max_resolve_seqno - range.min_resolve_seqno + 1) (by omega)
  have allocated :=
    ROUND_UP_toNat (DIVIDE_ROUND_UP (range.max_resolve_seqno - range.min_resolve_seqno + 1) 8) (by omega)
  have inSpan : ∀ m ∈ multis, seqnoBit range.min_resolve_seqno m <
      range.max_resolve_seqno.toNat - range.min_resolve_seqno.toNat + 1 := by
    intro m here
    have high := UInt64.le_iff_toNat_le.mp (spans.greatest m here)
    rw [seqnoBit]
    omega
  obtain ⟨filled, run, length, bits⟩ := setSeqnos_bits spans.least
    (List.replicate (ROUND_UP (DIVIDE_ROUND_UP
      (range.max_resolve_seqno - range.min_resolve_seqno + 1) 8) 8).toNat 0)
    (fun m here => by
      have low := inSpan m here
      rw [List.length_replicate]
      omega)
  have clear : ∀ j, range.max_resolve_seqno.toNat - range.min_resolve_seqno.toNat + 1 ≤ j →
      bitAt filled j = false := by
    intro j beyond
    rw [Bool.eq_false_iff]
    intro set
    rcases (bits j).mp set with old | ⟨m, here, same⟩
    · rw [bitAt_replicate] at old
      contradiction
    · have low := inSpan m here
      omega
  obtain ⟨before, missing⟩ := zerobitOffset_firstClear
    (DIVIDE_ROUND_UP (range.max_resolve_seqno - range.min_resolve_seqno + 1) 8).toNat clear (by omega) (by omega)
  refine ⟨_, by rw [findGap, run]; rfl, ?_⟩
  rw [UInt64.toNat_add]
  congr 1
  symm
  apply firstMissing_eq (Nat.le_add_right _ _)
  · intro m here same
    rw [Bool.eq_false_iff] at missing
    exact missing ((bits _).mpr (.inr ⟨m, here, by rw [seqnoBit]; omega⟩))
  · intro k above below
    rcases (bits _).mp (before (k - range.min_resolve_seqno.toNat) (by omega)) with old | ⟨m, here, same⟩
    · rw [bitAt_replicate] at old
      contradiction
    · have low := UInt64.le_iff_toNat_le.mp (spans.least m here)
      rw [seqnoBit] at same
      exact ⟨m, here, by omega⟩

/-! ## The boundary -/

/-- The first of the broken sequence number, the one to resynchronize at, where there is one, and the
missing one. -/
def lostBoundary (min_broken_seqno resync_seqno : UInt64) (missing : Nat) : Nat :=
  if resync_seqno = 0 then min min_broken_seqno.toNat missing
  else min (min min_broken_seqno.toNat resync_seqno.toNat) missing

theorem boundSeqno_toNat (resync_seqno min_brkn_seqno lcl_losttn_seqno : UInt64) :
    (boundSeqno (stopSeqno resync_seqno) min_brkn_seqno lcl_losttn_seqno).toNat =
      lostBoundary min_brkn_seqno resync_seqno lcl_losttn_seqno.toNat := by
  have largest := le_MAXUINT8 lcl_losttn_seqno
  by_cases none : resync_seqno = 0
  · simp only [boundSeqno, stopSeqno, lostBoundary, none, ne_eq, not_true_eq_false, if_false, if_true,
      UInt64.not_lt.mpr largest, gt_iff_lt, UInt64.lt_iff_toNat_lt]
    split <;> omega
  · simp only [boundSeqno, stopSeqno, lostBoundary, none, ne_eq, not_false_eq_true, if_false, if_true,
      gt_iff_lt, UInt64.lt_iff_toNat_lt]
    split <;> split <;> omega

/-- The transactions that a table holds. -/
def transactions (token_table : List (Option multi_struct)) : List multi_struct := token_table.filterMap id

/-- Both results are the ones that the table determines. -/
def BoundaryRight (token_table : List (Option multi_struct)) (resync_seqno losttn_seqno : UInt64) : Prop :=
  ∃ result, mur_process_seqno_table token_table resync_seqno losttn_seqno = some result ∧
    LeastBroken (transactions token_table) result.min_broken_seqno ∧
    result.losttn_seqno.toNat = lostBoundary result.min_broken_seqno resync_seqno
      (firstMissing (transactions token_table) losttn_seqno.toNat)

/-- The table starts at the given sequence number, which is not behind the one to resynchronize at, and its
range fills 64 bits: within eight of all sequence numbers, or without a gap up to the last of them. -/
def FillsWord (multis : List multi_struct) (resync_seqno losttn_seqno : UInt64) : Prop :=
  (∃ m ∈ multis, m.token = losttn_seqno) ∧ (resync_seqno = 0 ∨ losttn_seqno ≤ resync_seqno) ∧
    ((∃ m ∈ multis, losttn_seqno.toNat + 2 ^ 64 ≤ m.token.toNat + 8) ∨
      ∀ n, losttn_seqno.toNat ≤ n → n < 2 ^ 64 → ∃ m ∈ multis, m.token.toNat = n)

/-- A search is made when the table starts at the given sequence number. -/
theorem searchesGap_iff (spans : Spans multis range) (resync_seqno : UInt64) {losttn_seqno : UInt64}
    (first : ∀ m ∈ multis, losttn_seqno ≤ m.token) :
    SearchesGap range resync_seqno losttn_seqno ↔
      (∃ m ∈ multis, m.token = losttn_seqno) ∧ (resync_seqno = 0 ∨ losttn_seqno ≤ resync_seqno) := by
  have stops : stopSeqno resync_seqno ≥ losttn_seqno ↔ resync_seqno = 0 ∨ losttn_seqno ≤ resync_seqno := by
    by_cases none : resync_seqno = 0
    · simp [stopSeqno, none, le_MAXUINT8]
    · simp [stopSeqno, none]
  constructor
  · rintro ⟨start, stop, ordered⟩
    refine ⟨?_, stops.mp (by rw [start]; exact stop)⟩
    rcases spans.attained with ⟨-, least, greatest⟩ | ⟨⟨m, there, same⟩, -⟩
    · rw [least, greatest] at ordered
      exact absurd ordered (by decide)
    · exact ⟨m, there, by rw [same, start]⟩
  · rintro ⟨⟨m, there, same⟩, stop⟩
    have start : losttn_seqno = range.min_resolve_seqno := by
      rcases spans.attained with ⟨empty, -, -⟩ | ⟨⟨least, here, attained⟩, -⟩
      · rw [empty] at there
        exact absurd there List.not_mem_nil
      · apply UInt64.le_antisymm
        · rw [← attained]
          exact first least here
        · rw [← same]
          exact spans.least m there
    refine ⟨start, ?_, UInt64.le_trans (spans.least m there) (spans.greatest m there)⟩
    rw [← start]
    exact stops.mpr stop

/-- What the function determines, from the outcome of its search. -/
theorem boundaryRight_of_gap {token_table : List (Option multi_struct)} {resync_seqno losttn_seqno gap : UInt64}
    (found : (if SearchesGap (seqnoRange (transactions token_table)) resync_seqno losttn_seqno then
      findGap (transactions token_table) (seqnoRange (transactions token_table))
      else some losttn_seqno) = some gap) :
    BoundaryRight token_table resync_seqno losttn_seqno ↔
      lostBoundary (seqnoRange (transactions token_table)).min_brkn_seqno resync_seqno gap.toNat =
        lostBoundary (seqnoRange (transactions token_table)).min_brkn_seqno resync_seqno
          (firstMissing (transactions token_table) losttn_seqno.toNat) := by
  have run : mur_process_seqno_table token_table resync_seqno losttn_seqno =
      some ⟨(seqnoRange (transactions token_table)).min_brkn_seqno,
        boundSeqno (stopSeqno resync_seqno) (seqnoRange (transactions token_table)).min_brkn_seqno gap⟩ := by
    change Option.map _ (if SearchesGap (seqnoRange (transactions token_table)) resync_seqno losttn_seqno then
      findGap (transactions token_table) (seqnoRange (transactions token_table))
      else some losttn_seqno) = _
    rw [found]
    rfl
  constructor
  · rintro ⟨result, runs, -, right⟩
    rw [run] at runs
    cases runs
    rw [← right, boundSeqno_toNat]
  · intro same
    refine ⟨_, run, (seqnoRange_spans _).broken, ?_⟩
    rw [boundSeqno_toNat, same]

/-- The range of a table that is full up to the last sequence number. -/
theorem firstMissing_full {losttn_seqno : UInt64}
    (full : 2 ^ 64 ≤ firstMissing multis losttn_seqno.toNat) :
    firstMissing multis losttn_seqno.toNat = 2 ^ 64 ∧
      ∀ n, losttn_seqno.toNat ≤ n → n < 2 ^ 64 → ∃ m ∈ multis, m.token.toNat = n := by
  have bound := losttn_seqno.toNat_lt
  constructor
  · apply le_antisymm _ full
    apply firstMissing_le (by omega)
    intro m there
    have small := m.token.toNat_lt
    omega
  · intro n above small
    by_contra lacks
    push Not at lacks
    have early := firstMissing_le above lacks
    omega

/-- **The boundary of a rollback is determined rightly if and only if the table does not fill 64 bits
from the given sequence number on.** -/
theorem boundary_is_right_iff (token_table : List (Option multi_struct)) (resync_seqno losttn_seqno : UInt64)
    (first : ∀ m ∈ transactions token_table, losttn_seqno ≤ m.token) :
    BoundaryRight token_table resync_seqno losttn_seqno ↔
      ¬ FillsWord (transactions token_table) resync_seqno losttn_seqno := by
  have spans := seqnoRange_spans (transactions token_table)
  have searched := searchesGap_iff spans resync_seqno first
  by_cases searches : SearchesGap (seqnoRange (transactions token_table)) resync_seqno losttn_seqno
  · obtain ⟨⟨entry, there, same⟩, stop⟩ := searched.mp searches
    have start := searches.1
    by_cases leaves : (seqnoRange (transactions token_table)).min_resolve_seqno.toNat + 2 ^ 64 ≤
        (seqnoRange (transactions token_table)).max_resolve_seqno.toNat + 8
    · -- there is no room for the bits, and the first of them is written outside the array
      have refused := findGap_none spans entry there leaves
      have fills : FillsWord (transactions token_table) resync_seqno losttn_seqno := by
        refine ⟨⟨entry, there, same⟩, stop, .inl ?_⟩
        rcases spans.attained with ⟨empty, -, -⟩ | ⟨-, ⟨last, here, greatest⟩⟩
        · rw [empty] at there
          exact absurd there List.not_mem_nil
        · exact ⟨last, here, by rw [greatest, start]; exact leaves⟩
      constructor
      · rintro ⟨result, runs, -, -⟩
        change Option.map _ (if SearchesGap (seqnoRange (transactions token_table)) resync_seqno losttn_seqno then
          findGap (transactions token_table) (seqnoRange (transactions token_table))
          else some losttn_seqno) = _ at runs
        rw [if_pos searches, refused] at runs
        contradiction
      · exact fun stays => absurd fills stays
    · obtain ⟨gap, found, value⟩ := findGap_first spans entry there (by omega)
      rw [← start] at value
      rw [boundaryRight_of_gap (by rw [if_pos searches]; exact found), value]
      by_cases full : 2 ^ 64 ≤ firstMissing (transactions token_table) losttn_seqno.toNat
      · -- the boundary wraps around to zero
        obtain ⟨missing, every⟩ := firstMissing_full full
        have bound := losttn_seqno.toNat_lt
        obtain ⟨last, here, greatest⟩ := every (2 ^ 64 - 1) (by omega) (by omega)
        have high := UInt64.le_iff_toNat_le.mp (spans.greatest last here)
        have positive : 0 < losttn_seqno.toNat := by
          rw [← start] at leaves
          omega
        have broken : losttn_seqno.toNat ≤ (seqnoRange (transactions token_table)).min_brkn_seqno.toNat := by
          rcases spans.broken.attained with ⟨m, isIn, -, token⟩ | ⟨largest, -⟩
          · rw [← token]
            exact UInt64.le_iff_toNat_le.mp (first m isIn)
          · rw [largest]
            exact UInt64.le_iff_toNat_le.mp (le_MAXUINT8 _)
        have fills : FillsWord (transactions token_table) resync_seqno losttn_seqno :=
          ⟨⟨entry, there, same⟩, stop, .inr every⟩
        refine ⟨fun right => ?_, fun stays => absurd fills stays⟩
        rw [missing, Nat.mod_self] at right
        have resynced : resync_seqno ≠ 0 → losttn_seqno.toNat ≤ resync_seqno.toNat := fun given =>
          UInt64.le_iff_toNat_le.mp (stop.resolve_left given)
        simp only [lostBoundary] at right
        split at right
        · omega
        · have low := resynced ‹_›
          omega
      · have small : firstMissing (transactions token_table) losttn_seqno.toNat < 2 ^ 64 := Nat.not_le.mp full
        rw [Nat.mod_eq_of_lt small]
        refine ⟨fun _ fills => ?_, fun _ => rfl⟩
        rcases fills.2.2 with ⟨m, here, wide⟩ | every
        · have high := UInt64.le_iff_toNat_le.mp (spans.greatest m here)
          rw [start] at wide
          omega
        · obtain ⟨m, here, token⟩ := every _ (le_firstMissing _ _) small
          exact (Nat.find_spec (exists_missing (transactions token_table) losttn_seqno.toNat)).2 m here token
  · have stays : ¬ FillsWord (transactions token_table) resync_seqno losttn_seqno := fun fills =>
      searches (searched.mpr ⟨fills.1, fills.2.1⟩)
    rw [boundaryRight_of_gap (if_neg searches)]
    refine ⟨fun _ => stays, fun _ => ?_⟩
    by_cases lacks : ∃ m ∈ transactions token_table, m.token = losttn_seqno
    · -- the sequence number to resynchronize at comes before the table
      have early : resync_seqno ≠ 0 ∧ ¬ losttn_seqno ≤ resync_seqno :=
        not_or.mp fun stop => searches (searched.mpr ⟨lacks, stop⟩)
      have before := UInt64.lt_iff_toNat_lt.mp (UInt64.not_le.mp early.2)
      have later := le_firstMissing (transactions token_table) losttn_seqno.toNat
      simp only [lostBoundary, if_neg early.1]
      omega
    · push Not at lacks
      rw [firstMissing_self lacks]

/-- A table of three transactions, one of them broken, with a gap before it. -/
theorem boundary_is_right_at_gap :
    BoundaryRight [some ⟨5, 0⟩, none, some ⟨8, 2⟩, some ⟨6, 0⟩] 0 5 ↔
      ¬ FillsWord (transactions [some ⟨5, 0⟩, none, some ⟨8, 2⟩, some ⟨6, 0⟩]) 0 5 :=
  boundary_is_right_iff _ 0 5 (by decide)

/-- The last sequence number alone fills the word from itself on: the boundary becomes zero. -/
theorem boundary_wraps :
    (∀ m ∈ transactions [some ⟨MAXUINT8, 0⟩], MAXUINT8 ≤ m.token) ∧
      mur_process_seqno_table [some ⟨MAXUINT8, 0⟩] 0 MAXUINT8 = some ⟨MAXUINT8, 0⟩ ∧
      ¬ BoundaryRight [some ⟨MAXUINT8, 0⟩] 0 MAXUINT8 := by
  have run : mur_process_seqno_table [some ⟨MAXUINT8, 0⟩] 0 MAXUINT8 = some ⟨MAXUINT8, 0⟩ := by
    decide +kernel
  refine ⟨by decide, run, ?_⟩
  rintro ⟨result, runs, -, right⟩
  rw [run] at runs
  cases runs
  have later := le_firstMissing (transactions [some ⟨MAXUINT8, 0⟩]) MAXUINT8.toNat
  have largest : MAXUINT8.toNat = 2 ^ 64 - 1 := by decide
  have zero : (0 : UInt64).toNat = 0 := rfl
  simp only [lostBoundary, if_true] at right
  omega

end Ydb.SeqnoTable
