import Ydb.NumberJustificationText
import Ydb.NumericResults

/-!
# Justified floats

The two words of a float are one number of eighteen digits behind the point. Half a unit of the
last digit is added in the word that holds the digit, and a carry leaves one digit more before
the point. Digits are taken from the high word until the low one follows.
-/

namespace Ydb.NumberJustification

open Lib

/-! ## Rounding -/

/-- The eighteen digits of the two words. -/
def TwoWords.mant (f : TwoWords) : Nat := f.n * 10 ^ 9 + f.m

/-- Both words are below 10^9. -/
structure TwoWords.Fits (f : TwoWords) : Prop where
  n_lt : f.n < 10 ^ 9
  m_lt : f.m < 10 ^ 9

theorem fives_table_eq {i : Nat} (inside : i < 9) : fives_table i = 5 * 10 ^ (8 - i) := by
  interval_cases i <;> rfl

theorem carryOut_eq {f : TwoWords} (large : 10 ^ 9 ≤ f.n) (small : f.n < 2 * 10 ^ 9) (low : f.m < 10 ^ 9) :
    ∃ f', carryOut f = some f' ∧ f'.Fits ∧ f'.mant = f.mant / 10 ∧ f'.digs = f.digs + 1 := by
  have unit : MANT_LO = 10 ^ 8 := rfl
  have product : (f.n - f.n / 10 * 10) * MANT_LO ≤ 9 * 10 ^ 8 := by
    rw [unit]
    omega
  have tens := int4_of_lt (x := f.n / 10 * 10) (by omega)
  have digit := int4_of_lt (x := (f.n - f.n / 10 * 10) * MANT_LO) (by omega)
  have word := int4_of_lt (x := f.m / 10 + (f.n - f.n / 10 * 10) * MANT_LO) (by omega)
  refine ⟨{ n := f.n / 10, m := f.m / 10 + (f.n - f.n / 10 * 10) * MANT_LO, digs := f.digs + 1 }, ?_, ?_, ?_, rfl⟩
  · unfold carryOut
    dsimp only
    rw [tens, Option.bind_eq_bind, Option.bind_some, digit, Option.bind_some, word, Option.bind_some,
      Option.pure_def]
  · constructor
    · dsimp only
      omega
    · dsimp only
      omega
  · rw [TwoWords.mant, TwoWords.mant, unit]
    dsimp only
    omega

/-- Half a unit `h` is added, with a carry when the sum has a digit more. -/
def Added (f f' : TwoWords) (h : Nat) : Prop :=
  f'.Fits ∧ ((f.mant + h < 10 ^ 18 ∧ f'.mant = f.mant + h ∧ f'.digs = f.digs) ∨
    (10 ^ 18 ≤ f.mant + h ∧ f'.mant = (f.mant + h) / 10 ∧ f'.digs = f.digs + 1))

theorem roundHigh_eq {f : TwoWords} (fits : f.Fits) {w : Nat} (high : w < 9) :
    ∃ f', roundHigh f w = some f' ∧ Added f f' (5 * 10 ^ (17 - w)) := by
  have power : 10 ^ (17 - w) = 10 ^ (8 - w) * 10 ^ 9 := by
    rw [← Nat.pow_add]
    congr 1
    omega
  have most : 10 ^ (8 - w) ≤ 10 ^ 8 := Nat.pow_le_pow_right (by decide) (Nat.sub_le 8 w)
  have limit : MANT_HI = 10 ^ 9 := rfl
  have n_lt := fits.n_lt
  have m_lt := fits.m_lt
  unfold roundHigh
  rw [fives_table_eq high, int4_of_lt (by omega), Option.bind_eq_bind, Option.bind_some]
  by_cases carry : MANT_HI ≤ f.n + 5 * 10 ^ (8 - w)
  · obtain ⟨f', found, fits', mant, digs⟩ :=
      carryOut_eq (f := { f with n := f.n + 5 * 10 ^ (8 - w) }) (by dsimp only; omega) (by dsimp only; omega) m_lt
    rw [if_pos carry]
    refine ⟨f', found, fits', .inr ⟨?_, ?_, digs⟩⟩
    · rw [TwoWords.mant]
      omega
    · rw [mant, TwoWords.mant, TwoWords.mant]
      dsimp only
      omega
  · rw [if_neg carry]
    refine ⟨_, rfl, ⟨by dsimp only; omega, m_lt⟩, .inl ⟨?_, ?_, rfl⟩⟩
    · rw [TwoWords.mant]
      omega
    · rw [TwoWords.mant, TwoWords.mant]
      dsimp only
      omega

theorem roundLow_eq {f : TwoWords} (fits : f.Fits) {w : Nat} (low : 9 ≤ w) (inside : w < 18) :
    ∃ f', roundLow f w = some f' ∧ Added f f' (5 * 10 ^ (17 - w)) := by
  have entry : fives_table (w - 9) = 5 * 10 ^ (17 - w) := by
    rw [fives_table_eq (by omega)]
    congr 2
    omega
  have most : 10 ^ (17 - w) ≤ 10 ^ 8 := Nat.pow_le_pow_right (by decide) (by omega)
  have limit : MANT_HI = 10 ^ 9 := rfl
  have n_lt := fits.n_lt
  have m_lt := fits.m_lt
  unfold roundLow
  rw [entry, int4_of_lt (by omega), Option.bind_eq_bind, Option.bind_some]
  by_cases carry : MANT_HI ≤ f.m + 5 * 10 ^ (17 - w)
  · rw [if_pos carry]
    simp only
    rw [int4_of_lt (by omega), Option.bind_some]
    by_cases again : MANT_HI ≤ f.n + 1
    · obtain ⟨f', found, fits', mant, digs⟩ :=
        carryOut_eq (f := { f with n := f.n + 1, m := f.m + 5 * 10 ^ (17 - w) - MANT_HI })
          (by dsimp only; omega) (by dsimp only; omega) (by dsimp only; omega)
      rw [if_pos again]
      refine ⟨f', found, fits', .inr ⟨?_, ?_, digs⟩⟩
      · rw [TwoWords.mant]
        omega
      · rw [mant, TwoWords.mant, TwoWords.mant]
        dsimp only
        omega
    · rw [if_neg again]
      refine ⟨_, rfl, ⟨by dsimp only; omega, by dsimp only; omega⟩, .inl ⟨?_, ?_, rfl⟩⟩
      · rw [TwoWords.mant]
        omega
      · rw [TwoWords.mant, TwoWords.mant]
        dsimp only
        omega
  · rw [if_neg carry]
    refine ⟨_, rfl, ⟨n_lt, by dsimp only; omega⟩, .inl ⟨?_, ?_, rfl⟩⟩
    · rw [TwoWords.mant]
      omega
    · rw [TwoWords.mant, TwoWords.mant]
      dsimp only
      omega

/-- What rounding leaves: the words hold the units, unless these are none. -/
structure Rounded (f : TwoWords) (fract units : Nat) : Prop where
  fits : f.Fits
  units : (f.digs + fract ≤ 0 ∧ units = 0) ∨
    ∃ w : Nat, 0 < w ∧ f.digs + fract = w ∧ 10 ^ 17 ≤ f.mant ∧ units = f.mant * 10 ^ w / 10 ^ 18

theorem Added.rounded {f f' : TwoWords} {fract w : Nat} (added : Added f f' (5 * 10 ^ (17 - w)))
    (normal : 10 ^ 17 ≤ f.mant) (inside : w < 18) (place : f.digs + fract = w) :
    Rounded f' fract ((f.mant + 5 * 10 ^ (17 - w)) / 10 ^ (18 - w)) := by
  obtain ⟨fits, plain | carried⟩ := added
  · obtain ⟨less, mant, digs⟩ := plain
    have scale : (10 : Nat) ^ 18 = 10 ^ (18 - w) * 10 ^ w := by
      rw [← Nat.pow_add]
      congr 1
      omega
    refine ⟨fits, ?_⟩
    rcases Nat.eq_zero_or_pos w with rfl | positive
    · exact .inl ⟨by omega, Nat.div_eq_of_lt less⟩
    · refine .inr ⟨w, positive, by omega, by omega, ?_⟩
      rw [mant, scale, Nat.mul_div_mul_right _ _ (Nat.pow_pos (by decide))]
  · obtain ⟨over', mant, digs⟩ := carried
    have scale : (10 : Nat) ^ 18 = 10 ^ (17 - w) * 10 ^ (w + 1) := by
      rw [← Nat.pow_add]
      congr 1
      omega
    have tens : 10 ^ (18 - w) = 10 * 10 ^ (17 - w) := by
      rw [← Nat.pow_succ']
      congr 1
      omega
    refine ⟨fits, .inr ⟨w + 1, by omega, by omega, by omega, ?_⟩⟩
    rw [mant, scale, Nat.mul_div_mul_right _ _ (Nat.pow_pos (by decide)), tens, Nat.div_div_eq_div_mul]

/-- The units of a decimal that has more digits than are kept. -/
theorem units_short {d : Decimal} {fract k : Nat} (place : d.exp + fract + (k + 1) = 18) :
    roundedUnits 10 fract d.value = (d.mant + 5 * 10 ^ k) / 10 ^ (k + 1) := by
  have parts : |d.value| * ((10 : Nat) : ℚ) ^ fract = d.mant / (2 * (5 * 10 ^ k : Nat)) := by
    have power : (10 : ℚ) ^ (d.exp - 18) * 10 ^ fract * (2 * (5 * 10 ^ k)) = 1 := by
      have ten : (2 : ℚ) * (5 * 10 ^ k) = 10 ^ (k + 1) := by ring
      rw [ten, ← zpow_natCast, ← zpow_natCast, ← zpow_add₀ (by norm_num), ← zpow_add₀ (by norm_num)]
      have none : d.exp - 18 + (fract : ℤ) + ((k + 1 : Nat) : ℤ) = 0 := by
        push_cast
        omega
      rw [none, zpow_zero]
    rw [Decimal.value_abs]
    push_cast
    rw [eq_div_iff (by positivity), mul_assoc, mul_assoc, ← mul_assoc ((10 : ℚ) ^ (d.exp - 18)), power, mul_one]
  have unit : 2 * (5 * 10 ^ k) = 10 ^ (k + 1) := by
    rw [Nat.pow_succ]
    ring
  rw [roundedUnits_eq (by positivity) parts, unit]

/-- The units of a decimal whose digits are all kept. -/
theorem units_long {d : Decimal} {fract k : Nat} (place : d.exp + fract = 18 + k) :
    roundedUnits 10 fract d.value = d.mant * 10 ^ k := by
  apply roundedUnits_of_whole
  have power : (10 : ℚ) ^ (d.exp - 18) * 10 ^ fract = 10 ^ k := by
    rw [← zpow_natCast, ← zpow_natCast, ← zpow_add₀ (by norm_num)]
    congr 1
    omega
  rw [Decimal.value_abs]
  push_cast
  rw [mul_assoc, power]

/-- A float rounded at any digit. -/
theorem roundFloat_eq {f : TwoWords} {d : Decimal} (fits : f.Fits) (mant : f.mant = d.mant) (digs : f.digs = d.exp)
    (fract : Nat) : ∃ f', roundFloat f fract = some f' ∧ Rounded f' fract (roundedUnits 10 fract d.value) := by
  have normal : 10 ^ 17 ≤ f.mant := mant ▸ d.lo
  have most : f.mant < 10 ^ 18 := mant ▸ d.hi
  unfold roundFloat
  dsimp only
  by_cases inside : f.digs + fract < 18 ∧ 0 ≤ f.digs + fract
  · rw [if_pos inside]
    obtain ⟨w, place⟩ := Int.eq_ofNat_of_zero_le inside.2
    have few : w < 18 := by omega
    have units : roundedUnits 10 fract d.value = (f.mant + 5 * 10 ^ (17 - w)) / 10 ^ (18 - w) := by
      have k : 18 - w = 17 - w + 1 := by omega
      rw [k, units_short (k := 17 - w) (by omega), mant]
    have same : (f.digs + fract).toNat = w := by omega
    rw [units, same]
    by_cases high : f.digs + fract < 9
    · obtain ⟨f', found, added⟩ := roundHigh_eq fits (w := w) (by omega)
      rw [if_pos high]
      exact ⟨f', found, added.rounded normal few place⟩
    · obtain ⟨f', found, added⟩ := roundLow_eq fits (w := w) (by omega) few
      rw [if_neg high]
      exact ⟨f', found, added.rounded normal few place⟩
  · rw [if_neg inside]
    refine ⟨f, rfl, fits, ?_⟩
    by_cases below : f.digs + fract < 0
    · obtain ⟨k, more⟩ : ∃ k : Nat, f.digs + fract + (18 + k : Nat) = 17 := ⟨(-(f.digs + fract) - 1).toNat, by omega⟩
      have power : 10 ^ 18 ≤ 10 ^ (18 + k) := Nat.pow_le_pow_right (by decide) (Nat.le_add_right 18 k)
      refine .inl ⟨by omega, ?_⟩
      rw [units_short (k := 18 + k) (by omega), ← mant, Nat.pow_succ]
      apply Nat.div_eq_of_lt
      omega
    · obtain ⟨k, more⟩ : ∃ k : Nat, f.digs + fract = 18 + k := ⟨(f.digs + fract - 18).toNat, by omega⟩
      refine .inr ⟨18 + k, by omega, by omega, normal, ?_⟩
      rw [units_long (k := k) (by omega), ← mant, Nat.pow_add, Nat.mul_comm (10 ^ 18), ← Nat.mul_assoc,
        Nat.mul_div_cancel _ (by decide)]

end Ydb.NumberJustification
