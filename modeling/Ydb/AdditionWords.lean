import Ydb.Addition

/-!
# The words of an addition

`add_mvals` computes with words of 32 bits. Beside each part of it stands the list of the words
that the part goes through; for canonical operands all of them fit, so that the words of the model
need no bound.
-/

namespace Ydb

open Lib

/-! ## The words of each part -/

/-- A value that an `int4` can hold. -/
def FitsInt4 (x : Int) : Prop := -2 ^ 31 ≤ x ∧ x < 2 ^ 31

/-- The words that scaling goes through. -/
def scaleUpWords : Nat → Nat → List Int
  | 0, _ => []
  | rounds + 1, m1 =>
    if m1 < MANT_LO then ((m1 * 10 : Nat) : Int) :: scaleUpWords rounds (m1 * 10) else []

/-- The words of `unpack`. -/
def unpackWords (v : Mval) : List Int :=
  if v.mvtype.int then -v.m1 :: scaleUpWords NUM_DEC_DG_1L v.m1.natAbs else []

/-- The words of `shiftDown`. -/
def shiftDownWords (delta n1 n0 : Nat) : List Int :=
  if NUM_DEC_DG_1L ≤ delta then [((n1 / ten_pwr (delta - NUM_DEC_DG_1L) : Nat) : Int)]
  else
    let factor := ten_pwr delta
    let rest := n1 - n1 / factor * factor
    let scaled := rest * ten_pwr (NUM_DEC_DG_1L - delta)
    [n1 / factor, n1 / factor * factor, rest, scaled, n0 / factor, scaled + n0 / factor].map
      Nat.cast

/-- The words of `addWords`. -/
def addWordsWords (m1 m0 n1 n0 : Nat) : List Int :=
  let low := m0 + n0
  let (m1, m0) := if MANT_HI ≤ low then (m1 + 1, low - MANT_HI) else (m1, low)
  let high := m1 + n1
  let x := high / 10
  [low, m1, m0, high, x, x * 10, high - x * 10, (high - x * 10) * MANT_LO,
    m0 / 10 + (high - x * 10) * MANT_LO].map Nat.cast

/-- The words of `renormalise`. -/
def renormaliseWords (m1 m0 : Nat) : List Int :=
  let scaled := scaleUp NUM_DEC_DG_1L m1 0
  let factor := ten_pwr (NUM_DEC_DG_1L - scaled.2)
  let x := m0 / factor
  scaleUpWords NUM_DEC_DG_1L m1 ++
    [x, scaled.1 + x, x * factor, m0 - x * factor, (m0 - x * factor) * ten_pwr scaled.2].map
      Nat.cast

/-- The words of `subtractWords`. -/
def subtractWordsWords (m1 m0 n1 n0 : Int) : List Int :=
  let low := m0 - n0
  let (m1, m0) := if low < 0 then (m1 - 1, low + MANT_HI) else (m1, low)
  let high := m1 - n1
  let digits := if high = 0 then (m0, 0) else (high, m0)
  [low, m1, m0, high] ++ renormaliseWords digits.1.toNat digits.2.toNat

/-- The words of `combineWords`. -/
def combineWordsWords (swapped usign vsign : Bool) (m1 m0 n1 n0 : Nat) : List Int :=
  if usign = vsign then addWordsWords m1 m0 n1 n0
  else if swapped then subtractWordsWords n1 n0 m1 m0
  else subtractWordsWords m1 m0 n1 n0

/-- The words that `add_mvals` computes. -/
def addMvalsWords (u v : Mval) (subtraction : Bool) : List Int :=
  unpackWords u ++ unpackWords v ++
    match unpack u false, unpack v subtraction with
    | some a, some c =>
      let delta := a.exp - c.exp
      if 0 ≤ delta then
        if NUM_DEC_DG_2L ≤ delta then []
        else
          let n := shiftDown delta.toNat c.m1 c.m0
          let swapped := delta = 0 ∧ (a.m1 < n.1 ∨ (a.m1 = n.1 ∧ a.m0 < n.2))
          shiftDownWords delta.toNat c.m1 c.m0 ++
            combineWordsWords swapped a.sign c.sign a.m1 a.m0 n.1 n.2
      else if delta ≤ -NUM_DEC_DG_2L then []
      else
        let m := shiftDown (-delta).toNat a.m1 a.m0
        shiftDownWords (-delta).toNat a.m1 a.m0 ++
          combineWordsWords true a.sign c.sign m.1 m.2 c.m1 c.m0
    | _, _ => []

/-! ## The words fit -/

theorem fitsInt4_cast {n : Nat} (small : n < 2 ^ 31) : FitsInt4 n :=
  ⟨by omega, by exact_mod_cast small⟩

theorem scaleUpWords_fit (rounds m1 : Nat) : ∀ x ∈ scaleUpWords rounds m1, FitsInt4 x := by
  induction rounds generalizing m1 with
  | zero => exact fun x member => absurd member List.not_mem_nil
  | succ rounds ih =>
    rw [scaleUpWords]
    intro x member
    split at member
    · rename_i short
      rcases List.mem_cons.mp member with rfl | member
      · apply fitsInt4_cast
        simp only [MANT_LO] at short
        omega
      · exact ih _ x member
    · cases member

theorem addWordsWords_fit {m1 m0 n1 n0 : Nat} (mHigh : m1 < 10 ^ 9) (mLow : m0 < 10 ^ 9)
    (nHigh : n1 < 10 ^ 9) (nLow : n0 < 10 ^ 9) : ∀ x ∈ addWordsWords m1 m0 n1 n0, FitsInt4 x := by
  obtain ⟨k1, k0, carried, high, low⟩ : ∃ k1 k0,
      (if MANT_HI ≤ m0 + n0 then (m1 + 1, m0 + n0 - MANT_HI) else (m1, m0 + n0)) = (k1, k0) ∧
        k1 ≤ 10 ^ 9 ∧ k0 < 10 ^ 9 := by
    split
    · refine ⟨_, _, rfl, ?_⟩
      simp only [MANT_HI]
      omega
    · rename_i none
      refine ⟨_, _, rfl, ?_⟩
      simp only [MANT_HI] at none
      omega
  intro x member
  simp only [addWordsWords, carried] at member
  obtain ⟨n, listed, rfl⟩ := List.mem_map.mp member
  apply fitsInt4_cast
  have digit : k1 + n1 - (k1 + n1) / 10 * 10 ≤ 9 := by omega
  simp only [MANT_LO, List.mem_cons, List.not_mem_nil, or_false] at listed
  omega

theorem shiftDownWords_fit {delta n1 n0 : Nat} (near : delta < 18) (high : n1 < 10 ^ 9)
    (low : n0 < 10 ^ 9) : ∀ x ∈ shiftDownWords delta n1 n0, FitsInt4 x := by
  intro x member
  unfold shiftDownWords at member
  by_cases far : NUM_DEC_DG_1L ≤ delta
  · rw [if_pos far] at member
    rw [List.mem_singleton.mp member]
    apply fitsInt4_cast
    have below := Nat.div_le_self n1 (ten_pwr (delta - NUM_DEC_DG_1L))
    omega
  · rw [if_neg far] at member
    simp only [NUM_DEC_DG_1L] at far member
    rw [ten_pwr_eq delta (by omega), ten_pwr_eq (9 - delta) (by omega)] at member
    have width : 10 ^ delta * 10 ^ (9 - delta) = 10 ^ 9 := by
      rw [← Nat.pow_add]
      congr 1
      omega
    have factorPos : 0 < 10 ^ delta := Nat.pow_pos (by decide)
    have rest : n1 - n1 / 10 ^ delta * 10 ^ delta + 1 ≤ 10 ^ delta := by
      rw [← Nat.mod_eq_sub_div_mul]
      exact Nat.mod_lt _ factorPos
    have entering : n0 / 10 ^ delta < 10 ^ (9 - delta) := by
      rw [Nat.div_lt_iff_lt_mul factorPos, Nat.mul_comm, width]
      exact low
    have scaled := Nat.mul_le_mul_right (10 ^ (9 - delta)) rest
    have whole := Nat.div_mul_le_self n1 (10 ^ delta)
    have quotient := Nat.div_le_self n1 (10 ^ delta)
    rw [width, Nat.succ_mul] at scaled
    obtain ⟨n, listed, rfl⟩ := List.mem_map.mp member
    apply fitsInt4_cast
    clear width
    generalize n1 / 10 ^ delta * 10 ^ delta = kept at *
    generalize (n1 - kept) * 10 ^ (9 - delta) = moved at *
    generalize n0 / 10 ^ delta = entered at *
    generalize 10 ^ (9 - delta) = scale at *
    simp only [List.mem_cons, List.not_mem_nil, or_false] at listed
    omega

theorem renormaliseWords_fit {m1 m0 : Nat} (high : m1 < MANT_HI) (low : m0 < MANT_HI) :
    ∀ x ∈ renormaliseWords m1 m0, FitsInt4 x := by
  intro x member
  obtain ⟨word, k, scaled, few, small⟩ : ∃ word k, scaleUp NUM_DEC_DG_1L m1 0 = (word, k) ∧
      k ≤ 9 ∧ word < 10 ^ 9 := by
    by_cases empty : m1 = 0
    · refine ⟨0, 9, ?_, by decide, by decide⟩
      rw [empty]
      rfl
    · obtain ⟨k, few, scaled, _, hi⟩ := scaleUp_spec (Nat.pos_of_ne_zero empty) high
      exact ⟨_, k, scaled, by omega, hi⟩
  simp only [renormaliseWords, scaled] at member
  rcases List.mem_append.mp member with member | member
  · exact scaleUpWords_fit _ _ x member
  rw [ten_pwr_eq (NUM_DEC_DG_1L - k) (by simp only [NUM_DEC_DG_1L]; omega), ten_pwr_eq k few]
    at member
  have width : 10 ^ (9 - k) * 10 ^ k = 10 ^ 9 := by
    rw [← Nat.pow_add]
    congr 1
    omega
  simp only [NUM_DEC_DG_1L] at member
  have factorPos : 0 < 10 ^ (9 - k) := Nat.pow_pos (by decide)
  have rest : m0 - m0 / 10 ^ (9 - k) * 10 ^ (9 - k) + 1 ≤ 10 ^ (9 - k) := by
    rw [← Nat.mod_eq_sub_div_mul]
    exact Nat.mod_lt _ factorPos
  have moved := Nat.mul_le_mul_right (10 ^ k) rest
  have whole := Nat.div_mul_le_self m0 (10 ^ (9 - k))
  have quotient := Nat.div_le_self m0 (10 ^ (9 - k))
  rw [width, Nat.succ_mul] at moved
  change m0 < 10 ^ 9 at low
  obtain ⟨n, listed, rfl⟩ := List.mem_map.mp member
  apply fitsInt4_cast
  clear width
  generalize m0 / 10 ^ (9 - k) * 10 ^ (9 - k) = kept at *
  generalize (m0 - kept) * 10 ^ k = shifted at *
  generalize m0 / 10 ^ (9 - k) = entering at *
  generalize 10 ^ k = scale at *
  simp only [List.mem_cons, List.not_mem_nil, or_false] at listed
  omega

theorem subtractWordsWords_fit {m1 m0 n1 n0 : Nat} (mHigh : m1 < 10 ^ 9) (mLow : m0 < 10 ^ 9)
    (nHigh : n1 < 10 ^ 9) (nLow : n0 < 10 ^ 9) :
    ∀ x ∈ subtractWordsWords m1 m0 n1 n0, FitsInt4 x := by
  obtain ⟨k1, k0, borrowed, least, high, low⟩ : ∃ k1 k0 : Int,
      (if (m0 : Int) - n0 < 0 then ((m1 : Int) - 1, (m0 : Int) - n0 + MANT_HI)
        else ((m1 : Int), (m0 : Int) - n0)) = (k1, k0) ∧ -1 ≤ k1 ∧ k1 < 10 ^ 9 ∧
        0 ≤ k0 ∧ k0 < 10 ^ 9 := by
    split
    · refine ⟨_, _, rfl, ?_⟩
      simp only [MANT_HI]
      omega
    · refine ⟨_, _, rfl, ?_⟩
      omega
  intro x member
  simp only [subtractWordsWords, borrowed] at member
  rcases List.mem_append.mp member with member | member
  · simp only [List.mem_cons, List.not_mem_nil, or_false] at member
    unfold FitsInt4
    omega
  · have unit : MANT_HI = 10 ^ 9 := rfl
    by_cases empty : k1 - n1 = 0
    · rw [if_pos empty] at member
      refine renormaliseWords_fit ?_ ?_ x member
      · dsimp only
        omega
      · show (0 : Int).toNat < MANT_HI
        decide
    · rw [if_neg empty] at member
      refine renormaliseWords_fit ?_ ?_ x member
      · dsimp only
        omega
      · dsimp only
        omega

theorem unpackWords_fit {v : Mval} (form : v.IsInt ∨ v.IsFloat) :
    ∀ x ∈ unpackWords v, FitsInt4 x := by
  intro x member
  rw [unpackWords] at member
  split at member
  · rename_i int
    rcases List.mem_cons.mp member with rfl | member
    · have small : v.m1.natAbs < MANT_HI := by
        rcases form with isInt | isFloat
        · exact isInt.small
        · exact absurd (isFloat.int.symm.trans int) Bool.false_ne_true
      simp only [MANT_HI] at small
      unfold FitsInt4
      omega
    · exact scaleUpWords_fit _ _ x member
  · cases member

theorem combineWordsWords_fit (swapped usign vsign : Bool) {m1 m0 n1 n0 : Nat} (mHigh : m1 < 10 ^ 9)
    (mLow : m0 < 10 ^ 9) (nHigh : n1 < 10 ^ 9) (nLow : n0 < 10 ^ 9) :
    ∀ x ∈ combineWordsWords swapped usign vsign m1 m0 n1 n0, FitsInt4 x := by
  unfold combineWordsWords
  split
  · exact addWordsWords_fit mHigh mLow nHigh nLow
  · split
    · exact subtractWordsWords_fit nHigh nLow mHigh mLow
    · exact subtractWordsWords_fit mHigh mLow nHigh nLow

theorem shiftDown_small {delta n1 n0 : Nat} (near : delta < 18) (high : n1 < 10 ^ 9)
    (low : n0 < 10 ^ 9) :
    (shiftDown delta n1 n0).1 < 10 ^ 9 ∧ (shiftDown delta n1 n0).2 < 10 ^ 9 := by
  obtain ⟨digits, below⟩ := shiftDown_eq n1 near low
  have quotient := Nat.div_le_self (n1 * 10 ^ 9 + n0) (10 ^ delta)
  exact ⟨by omega, below high⟩

/-- No word that the sum or difference of canonical numbers goes through overflows its `int4`. -/
theorem add_mvals_words_fit {u v : Mval} (uCanonical : u.Canonical) (vCanonical : v.Canonical)
    (subtraction : Bool) : ∀ x ∈ addMvalsWords u v subtraction, FitsInt4 x := by
  intro x member
  rcases List.mem_append.mp member with member | member
  · rcases List.mem_append.mp member with member | member
    · exact unpackWords_fit uCanonical.form x member
    · exact unpackWords_fit vCanonical.form x member
  rcases unpack_spec uCanonical.form false with ⟨_, _, none⟩ | ⟨a, aNormal, unpacked, _⟩
  · rw [none] at member
    cases member
  rcases unpack_spec vCanonical.form subtraction with ⟨_, _, none⟩ | ⟨c, cNormal, unpacked', _⟩
  · rw [unpacked, none] at member
    cases member
  have aHigh : a.m1 < 10 ^ 9 := aNormal.hi
  have aLow : a.m0 < 10 ^ 9 := aNormal.low
  have cHigh : c.m1 < 10 ^ 9 := cNormal.hi
  have cLow : c.m0 < 10 ^ 9 := cNormal.low
  rw [unpacked, unpacked'] at member
  dsimp only at member
  split at member
  · split at member
    · cases member
    · rename_i near
      have close : (a.exp - c.exp).toNat < 18 := by
        simp only [NUM_DEC_DG_2L] at near
        omega
      obtain ⟨high, low⟩ := shiftDown_small close cHigh cLow
      rcases List.mem_append.mp member with member | member
      · exact shiftDownWords_fit close cHigh cLow x member
      · exact combineWordsWords_fit _ _ _ aHigh aLow high low x member
  · split at member
    · cases member
    · rename_i near
      have close : (-(a.exp - c.exp)).toNat < 18 := by
        simp only [NUM_DEC_DG_2L] at near
        omega
      obtain ⟨high, low⟩ := shiftDown_small close aHigh aLow
      rcases List.mem_append.mp member with member | member
      · exact shiftDownWords_fit close aHigh aLow x member
      · exact combineWordsWords_fit _ _ _ high low cHigh cLow x member

/-- The integer routines add and subtract without an overflow. -/
theorem int_words_fit {u v : Mval} (uInt : u.IsInt) (vInt : v.IsInt) :
    FitsInt4 (u.m1 + v.m1) ∧ FitsInt4 (u.m1 - v.m1) := by
  have uSmall := uInt.small
  have vSmall := vInt.small
  simp only [MANT_HI] at uSmall vSmall
  unfold FitsInt4
  omega

end Ydb
