import Ydb.NumberJustificationFloats

/-!
# Results of `$JUSTIFY`

The digits of a float come from two words, one after the other. With the digits of the
thousandths this gives the text of every number in either form.
-/

namespace Ydb.NumberJustification

open Lib

/-! ## Digits of two words -/

/-- The words stand for the fraction `x / 10 ^ 18`. -/
structure Words.Holds (s : Words) (x : Nat) : Prop where
  n_lt : s.n < 10 ^ 9
  m_lt : s.m < 10 ^ 9
  high : s.digs_used < 9 → 10 ^ s.digs_used ∣ s.n
  low : 9 ≤ s.digs_used → s.m = 0
  value : x = s.n * 10 ^ 9 + s.m * 10 ^ s.digs_used

/-- What is left of a high word that keeps only its upper digits is clear of the low word. -/
theorem Words.Holds.room {s : Words} {x : Nat} (holds : s.Holds x) :
    s.n % 10 ^ 8 * 10 ^ 9 + s.m * 10 ^ s.digs_used < 10 ^ 17 := by
  have m_lt := holds.m_lt
  by_cases first : s.digs_used < 9
  · have power : 10 ^ s.digs_used ≤ 10 ^ 8 := Nat.pow_le_pow_right (by decide) (by omega)
    have eight : 10 ^ s.digs_used ∣ 10 ^ 8 := Nat.pow_dvd_pow 10 (by omega)
    have rest : 10 ^ s.digs_used ∣ s.n % 10 ^ 8 := (Nat.dvd_mod_iff eight).mpr (holds.high first)
    have below : s.n % 10 ^ 8 + 10 ^ s.digs_used ≤ 10 ^ 8 := by
      obtain ⟨u, same⟩ := rest
      obtain ⟨v, same'⟩ := eight
      have less : s.n % 10 ^ 8 < 10 ^ 8 := Nat.mod_lt _ (by decide)
      rw [same, same'] at less
      have fewer : u < v := Nat.lt_of_mul_lt_mul_left less
      have product := Nat.mul_le_mul_left (10 ^ s.digs_used) fewer
      rw [← same', Nat.mul_succ, ← same] at product
      exact product
    have positive : 0 < 10 ^ s.digs_used := Nat.pow_pos (by decide)
    have product := Nat.mul_lt_mul_of_pos_right m_lt positive
    omega
  · rw [holds.low (by omega), Nat.zero_mul]
    omega

theorem Words.Holds.digit {s : Words} {x : Nat} (holds : s.Holds x) :
    s.n / 100000000 = x * 10 / 10 ^ 18 ∧
      x * 10 % 10 ^ 18 = s.n % 10 ^ 8 * 10 ^ 10 + s.m * 10 ^ (s.digs_used + 1) := by
  have room := holds.room
  have value := holds.value
  have next : s.m * 10 ^ (s.digs_used + 1) = s.m * 10 ^ s.digs_used * 10 := by
    rw [Nat.pow_succ, Nat.mul_assoc]
  rw [next]
  generalize s.m * 10 ^ s.digs_used = low at room value ⊢
  omega

theorem Words.Holds.lt {s : Words} {x : Nat} (holds : s.Holds x) : x < 10 ^ 18 := by
  have room := holds.room
  have value := holds.value
  have n_lt := holds.n_lt
  generalize s.m * 10 ^ s.digs_used = low at room value
  omega

theorem nextWords_eq {s : Words} {x : Nat} (holds : s.Holds x) :
    ∃ s', nextWords s (s.n / 100000000) = some s' ∧ s'.Holds (x * 10 % 10 ^ 18) := by
  obtain ⟨_, next⟩ := holds.digit
  rw [next]
  unfold nextWords
  by_cases ninth : s.digs_used + 1 = 9
  · have eight : s.digs_used = 8 := by omega
    have whole : 10 ^ 8 ∣ s.n := by
      have divides := holds.high (by omega)
      rwa [eight] at divides
    rw [if_pos ninth]
    refine ⟨_, rfl, holds.m_lt, Nat.pow_pos (by decide), ?_, fun _ => rfl, ?_⟩
    · intro less
      exact absurd less (by dsimp only; omega)
    · rw [Nat.mod_eq_zero_of_dvd whole, Nat.zero_mul, Nat.zero_add, ninth]
      change s.m * 10 ^ 9 = s.m * 10 ^ 9 + 0 * 10 ^ 9
      rw [Nat.zero_mul, Nat.add_zero]
  · rw [if_neg ninth, shiftOut_eq holds.n_lt]
    have shifted : s.n * 10 % 10 ^ 9 = s.n % 10 ^ 8 * 10 := by omega
    refine ⟨_, rfl, Nat.mod_lt _ (by decide), holds.m_lt, ?_, ?_, ?_⟩
    · intro first
      dsimp only at first ⊢
      have eight : 10 ^ s.digs_used ∣ 10 ^ 8 := Nat.pow_dvd_pow 10 (by omega)
      have rest : 10 ^ s.digs_used ∣ s.n % 10 ^ 8 := (Nat.dvd_mod_iff eight).mpr (holds.high (by omega))
      rw [shifted, Nat.pow_succ]
      exact Nat.mul_dvd_mul_right rest 10
    · intro last
      dsimp only at last ⊢
      exact holds.low (by omega)
    · dsimp only
      rw [shifted]
      omega

theorem writeDigits_eq (digs : Nat) {s : Words} {x : Nat} (holds : s.Holds x) :
    ∃ s', writeDigits digs s = some ((fractionDigits 10 (10 ^ 18) x digs).map digitByte, s') ∧
      s'.Holds (x * 10 ^ digs % 10 ^ 18) := by
  induction digs generalizing s x with
  | zero =>
    refine ⟨s, rfl, ?_⟩
    rw [Nat.pow_zero, Nat.mul_one, Nat.mod_eq_of_lt holds.lt]
    exact holds
  | succ digs ih =>
    rw [writeDigits]
    by_cases more : s.n ≠ 0 ∨ s.m ≠ 0
    · obtain ⟨s1, found, holds1⟩ := nextWords_eq holds
      obtain ⟨s2, found2, holds2⟩ := ih holds1
      have rest : x * 10 % 10 ^ 18 * 10 ^ digs % 10 ^ 18 = x * 10 ^ (digs + 1) % 10 ^ 18 := by
        rw [Nat.mod_mul_mod, Nat.mul_assoc, ← Nat.pow_succ']
      rw [rest] at holds2
      refine ⟨s2, ?_, holds2⟩
      rw [if_pos more, fractionDigits_succ (by decide) (by decide) holds.lt, List.map_cons, ← holds.digit.1]
      simp only [found, found2, Option.bind_eq_bind, Option.bind_some, Option.pure_def]
    · rw [not_or, not_not, not_not] at more
      have none : x = 0 := by
        rw [holds.value, more.1, more.2, Nat.zero_mul, Nat.zero_mul]
      refine ⟨s, ?_, ?_⟩
      · rw [if_neg (by rw [not_or, not_not, not_not]; exact more), none, fractionDigits_zero, List.map_replicate]
        rfl
      · rw [none, Nat.zero_mul, Nat.zero_mod, ← none]
        exact holds

theorem TwoWords.Fits.holds {f : TwoWords} (fits : f.Fits) :
    ({ n := f.n, m := f.m, digs_used := 0 } : Words).Holds f.mant where
  n_lt := fits.n_lt
  m_lt := fits.m_lt
  high := fun _ => Nat.one_dvd f.n
  low := fun used => absurd used (Nat.not_succ_le_zero 8)
  value := by
    rw [TwoWords.mant, Nat.pow_zero, Nat.mul_one]

/-! ## Floats -/

/-- The digits of the units, before and behind the point. -/
theorem digits_of_units {x w fract digs : Nat} (small : x < 10 ^ 18) (normal : 10 ^ 17 ≤ x) (some : 0 < digs)
    (place : w = digs + fract) :
    fractionDigits 10 (10 ^ 18) x digs = numeral 10 (x * 10 ^ w / 10 ^ 18 / 10 ^ fract) ∧
      fractionDigits 10 (10 ^ 18) (x * 10 ^ digs % 10 ^ 18) fract = digits 10 fract (x * 10 ^ w / 10 ^ 18) := by
  obtain ⟨k, rfl⟩ := Nat.exists_eq_add_one_of_ne_zero (Nat.ne_of_gt some)
  have above : x * 10 ^ w / 10 ^ 18 / 10 ^ fract = x * 10 ^ (k + 1) / 10 ^ 18 := by
    rw [Nat.div_right_comm, place, Nat.pow_add 10 (k + 1), ← Nat.mul_assoc,
      Nat.mul_div_cancel _ (Nat.pow_pos (by decide))]
  have lo : 10 ^ k ≤ x * 10 ^ (k + 1) / 10 ^ 18 := by
    rw [Nat.le_div_iff_mul_le (by decide)]
    have product := Nat.mul_le_mul_right (10 ^ (k + 1)) normal
    have power : 10 ^ k * 10 ^ 18 = 10 ^ 17 * 10 ^ (k + 1) := by
      rw [← Nat.pow_add, ← Nat.pow_add]
      congr 1
      omega
    rw [power]
    exact product
  have hi : x * 10 ^ (k + 1) / 10 ^ 18 < 10 ^ (k + 1) := by
    rw [Nat.div_lt_iff_lt_mul (by decide), Nat.mul_comm]
    exact Nat.mul_lt_mul_of_pos_left small (Nat.pow_pos (by decide))
  constructor
  · rw [above, numeral_eq (by decide) lo hi]
    rfl
  · rw [place, fractionDigits_remainder (by decide)]

/-- Zeros, and then the digits, of units below one. -/
theorem digits_of_small_units {x w fract zeros : Nat} (small : x < 10 ^ 18) (place : fract = zeros + w) :
    List.replicate zeros 0 ++ fractionDigits 10 (10 ^ 18) x w = digits 10 fract (x * 10 ^ w / 10 ^ 18) ∧
      x * 10 ^ w / 10 ^ 18 / 10 ^ fract = 0 := by
  have below : x * 10 ^ w / 10 ^ 18 < 10 ^ w := by
    rw [Nat.div_lt_iff_lt_mul (by decide), Nat.mul_comm]
    exact Nat.mul_lt_mul_of_pos_left small (Nat.pow_pos (by decide))
  have more : 10 ^ w ≤ 10 ^ fract := Nat.pow_le_pow_right (by decide) (by omega)
  constructor
  · rw [place, digits_leading_zeros 10 zeros w _ below]
    rfl
  · exact Nat.div_eq_of_lt (Nat.lt_of_lt_of_le below more)

/-- The digits before the point, and then those behind it. -/
theorem writeParts {f : TwoWords} {fract units : Nat} (rounded : Rounded f fract units)
    (kept : 0 < f.digs + fract) :
    ∃ s, writeFloatWhole f.digs { n := f.n, m := f.m, digs_used := 0 } =
        some ((numeral 10 (units / 10 ^ fract)).map digitByte, s) ∧
      writeFloatFraction f.digs fract s =
        some (if fract ≠ 0 then Ascii.dot :: (digits 10 fract units).map digitByte else []) ∧
      (numeral 10 (units / 10 ^ fract)).length = if f.digs < 1 then 1 else f.digs := by
  obtain ⟨none, _⟩ | ⟨w, positive, place, normal, units⟩ := rounded.units
  · omega
  have holds := rounded.fits.holds
  by_cases before : f.digs < 1
  · obtain ⟨zeros, opened⟩ : ∃ zeros : Nat, fract = zeros + w ∧ f.digs = -zeros := ⟨fract - w, by omega, by omega⟩
    obtain ⟨behind, whole⟩ := digits_of_small_units holds.lt opened.1
    obtain ⟨s, found, _⟩ := writeDigits_eq w holds
    have fractNe : fract ≠ 0 := by omega
    have count : (if f.digs < 0 then min (-f.digs).toNat fract else 0) = zeros := by
      split <;> omega
    have rest : fract - zeros = w := by omega
    refine ⟨{ n := f.n, m := f.m, digs_used := 0 }, ?_, ?_, ?_⟩
    · rw [writeFloatWhole, if_pos before, units, whole]
      rfl
    · rw [writeFloatFraction, if_pos fractNe, if_pos fractNe, units, ← behind, List.map_append,
        List.map_replicate]
      simp only [count, rest, found, Option.bind_eq_bind, Option.bind_some, Option.pure_def]
      rfl
    · rw [units, whole, if_pos before]
      rfl
  · obtain ⟨digs, shift⟩ : ∃ digs : Nat, f.digs = digs := ⟨f.digs.toNat, by omega⟩
    obtain ⟨whole, behind⟩ := digits_of_units holds.lt normal (by omega : 0 < digs) (by omega : w = digs + fract)
    obtain ⟨s, found, holds'⟩ := writeDigits_eq digs holds
    obtain ⟨s', found', _⟩ := writeDigits_eq fract holds'
    have natural : f.digs.toNat = digs := by omega
    refine ⟨s, ?_, ?_, ?_⟩
    · rw [writeFloatWhole, if_neg before, natural, found, whole, units]
    · rw [writeFloatFraction]
      have count : (if f.digs < 0 then min (-f.digs).toNat fract else 0) = 0 := if_neg (by omega)
      by_cases fractNe : fract ≠ 0
      · rw [if_pos fractNe, if_pos fractNe, units, ← behind]
        simp only [count, Nat.sub_zero, found', Option.bind_eq_bind, Option.bind_some, Option.pure_def]
        rfl
      · rw [if_neg fractNe, if_neg fractNe]
    · rw [units, ← whole, fractionDigits_length, if_neg before, shift]

theorem writeFloat_eq {f : TwoWords} {fract units : Nat} (width : Nat) (sign : Bool)
    (rounded : Rounded f fract units) (kept : 0 < f.digs + fract) :
    writeFloat width fract sign f = some (justified width (unitsText sign units fract)) := by
  obtain ⟨s, whole, behind, count⟩ := writeParts rounded kept
  have length := unitsText_length sign units fract
  unfold writeFloat
  simp only [whole, behind, Option.bind_eq_bind, Option.bind_some, Option.pure_def]
  rw [List.append_assoc, List.append_assoc, ← List.append_assoc (minusSign sign)]
  have text : minusSign sign ++ (numeral 10 (units / 10 ^ fract)).map digitByte ++
      (if fract ≠ 0 then Ascii.dot :: (digits 10 fract units).map digitByte else []) =
      unitsText sign units fract := by
    rw [unitsText, digits_units]
  rw [text]
  congr 1
  apply spaces_append
  rw [length]
  split at count <;> split <;> split <;> push_cast <;> omega

/-- Without units only zeros are written. -/
theorem writeFloat_none {f : TwoWords} {fract : Nat} (width : Nat) (none : f.digs + fract ≤ 0) :
    writeFloat width fract false { f with n := 0, m := 0 } = some (justified width (unitsText false 0 fract)) := by
  have length := unitsText_length false 0 fract
  have whole : writeFloatWhole f.digs { n := 0, m := 0, digs_used := 0 } =
      some ([Ascii.zero], { n := 0, m := 0, digs_used := 0 }) := if_pos (by omega)
  have behind : writeFloatFraction f.digs fract { n := 0, m := 0, digs_used := 0 } =
      some (if fract ≠ 0 then Ascii.dot :: List.replicate fract Ascii.zero else []) := by
    rw [writeFloatFraction]
    by_cases fractNe : fract ≠ 0
    · have count : (if f.digs < 0 then min (-f.digs).toNat fract else 0) = fract := by
        split <;> omega
      rw [if_pos fractNe, if_pos fractNe]
      simp only [count, Nat.sub_self, writeDigits, Option.bind_eq_bind, Option.bind_some, Option.pure_def,
        List.append_nil]
    · rw [if_neg fractNe, if_neg fractNe]
  have text : minusSign false ++ ([Ascii.zero] ++
      (if fract ≠ 0 then Ascii.dot :: List.replicate fract Ascii.zero else [])) = unitsText false 0 fract := by
    rw [unitsText, Nat.zero_div, Nat.zero_mod, digits_zero, List.map_replicate]
    rfl
  unfold writeFloat
  simp only [whole, behind, Option.bind_eq_bind, Option.bind_some, Option.pure_def]
  rw [List.append_assoc, List.append_assoc, text]
  congr 1
  apply spaces_append
  rw [length, Nat.zero_div]
  change _ = (width : Int) - ((0 + 1 + if fract ≠ 0 then fract + 1 else 0 : Nat) : Int)
  rw [if_pos (by omega : f.digs < 1)]
  split <;> push_cast <;> omega

/-- The text of a justified float. -/
theorem justifyFloat_eq {v : Mval} (isFloat : v.IsFloat) (width fract : Nat) :
    justifyFloat v.sgn v.e v.m1 v.m0 width fract = some (justified width (fixedText v.value fract)) := by
  have bounds := isFloat.bounds
  have fits : ({ n := v.m1.toNat, m := v.m0.toNat, digs := v.e - MV_XBIAS } : TwoWords).Fits :=
    ⟨by dsimp only; omega, by dsimp only; omega⟩
  obtain ⟨f, found, rounded⟩ := roundFloat_eq (d := isFloat.toDecimal) fits rfl rfl fract
  have decimal := isFloat.toDecimal_value
  rw [decimal] at rounded
  rw [justifyFloat, found, Option.bind_eq_bind, Option.bind_some]
  have text : fixedText v.value fract =
      unitsText (decide (v.value < 0 ∧ roundedUnits 10 fract v.value ≠ 0)) (roundedUnits 10 fract v.value) fract :=
    rfl
  rw [text]
  by_cases none : f.digs ≤ -(fract : Int)
  · have units : roundedUnits 10 fract v.value = 0 := by
      obtain ⟨_, units⟩ | ⟨w, positive, place, _⟩ := rounded.units
      · exact units
      · omega
    have sign : decide (v.value < 0 ∧ roundedUnits 10 fract v.value ≠ 0) = false :=
      decide_eq_false fun both => both.2 units
    rw [if_pos none, sign, units]
    exact writeFloat_none width (by omega)
  · have units : roundedUnits 10 fract v.value ≠ 0 := by
      obtain ⟨less, _⟩ | ⟨w, positive, place, normal, units⟩ := rounded.units
      · omega
      · rw [units]
        have ten : 10 ^ 1 ≤ 10 ^ w := Nat.pow_le_pow_right (by decide) positive
        have product := Nat.mul_le_mul normal ten
        omega
    have sign : decide (v.value < 0 ∧ roundedUnits 10 fract v.value ≠ 0) = v.sgn := by
      rw [Bool.eq_iff_iff, decide_eq_true_iff, isFloat.sgn_iff]
      exact and_iff_left units
    rw [if_neg none, sign]
    exact writeFloat_eq width v.sgn rounded (by omega)

/-! ## Results -/

/-- What `op_fnj3` gives for a number, when the width and the fraction are accepted. -/
theorem op_fnj3_of_accepted {v : Mval} (valid : v.IsInt ∨ v.IsFloat) {width fract : Int} (wide : 0 ≤ width)
    (places : 0 ≤ fract) (accepted : width + MAX_NUM_SIZE + 2 + fract ≤ MAX_STRLEN) :
    op_fnj3 v width fract = .ok (some (justified width.toNat (fixedText v.value fract.toNat))) := by
  have number : MAX_NUM_SIZE = 64 := rfl
  unfold op_fnj3
  dsimp only
  rw [if_neg (by omega : ¬ width < 0), if_neg (by omega), if_neg (by omega), if_neg (by omega), if_neg (by omega)]
  rcases valid with isInt | isFloat
  · have value : v.value = v.m1 / 1000 := by
      rw [Mval.value, isInt.int, if_pos rfl]
      rfl
    rw [if_pos isInt.int, justifyThousandths_eq isInt.small, value]
  · rw [isFloat.int, if_neg Bool.false_ne_true, justifyFloat_eq isFloat]

theorem accepted_of_ok {v : Mval} {width fract : Int} {result : Option (List UInt8)} (wide : 0 ≤ width)
    (ok : op_fnj3 v width fract = .ok result) : width + MAX_NUM_SIZE + 2 + fract ≤ MAX_STRLEN := by
  unfold op_fnj3 at ok
  dsimp only at ok
  rw [if_neg (by omega : ¬ width < 0)] at ok
  by_contra many
  rw [if_pos (by omega : MAX_STRLEN < width + MAX_NUM_SIZE + 2 + fract)] at ok
  split at ok
  · cases ok
  · split at ok
    · cases ok
    · split at ok <;> cases ok

/-- A number in either form is small enough for the space that is reserved. -/
theorem value_le {v : Mval} (valid : v.IsInt ∨ v.IsFloat) : |v.value| ≤ (10 : Nat) ^ 47 := by
  rcases valid with isInt | isFloat
  · have small := isInt.small
    have natural : |(v.m1 : ℚ)| ≤ 10 ^ 9 := by
      rw [← Int.cast_abs, Int.abs_eq_natAbs]
      exact_mod_cast Nat.le_of_lt small
    have thousand : (0 : ℚ) < (MV_BIAS : ℚ) := by norm_num [MV_BIAS]
    rw [Mval.value, isInt.int, if_pos rfl, abs_div, abs_of_pos thousand, div_le_iff₀ thousand]
    apply le_trans natural
    norm_num [MV_BIAS]
  · have upper := isFloat.inRange.2
    have bound := isFloat.toDecimal.value_abs_bounds.2
    have power : (10 : ℚ) ^ isFloat.toDecimal.exp ≤ 10 ^ (47 : ℤ) := zpow_le_zpow_right₀ (by norm_num) (by omega)
    rw [← isFloat.toDecimal_value, Decimal.value_abs]
    exact_mod_cast le_trans (le_of_lt bound) power

theorem fixedText_length {q : ℚ} (small : |q| ≤ (10 : Nat) ^ 47) (fract : Nat) :
    (fixedText q fract).length ≤ fract + 50 := by
  have units := roundedUnits_le (n := fract) (k := 47) (b := 10) (by exact_mod_cast small)
  have whole : roundedUnits 10 fract q / 10 ^ fract < 10 ^ (47 + 1) := by
    apply Nat.lt_of_le_of_lt (Nat.div_le_div_right units)
    rw [Nat.mul_div_cancel _ (Nat.pow_pos (by decide))]
    exact Nat.pow_lt_pow_right (by decide) (by decide)
  have digits := numeral_length_le (by decide) whole
  have length := unitsText_length (decide (q < 0 ∧ roundedUnits 10 fract q ≠ 0)) (roundedUnits 10 fract q) fract
  change (unitsText _ _ _).length ≤ _
  rw [length]
  split <;> split <;> omega

/-- The number is written with the digits that rounding leaves, behind spaces up to the width;
the form of the number does not count, and the space that was reserved suffices. -/
theorem op_fnj3_justifies (v : Mval) (valid : v.IsInt ∨ v.IsFloat) (width fract : Int) (wide : 0 ≤ width)
    (places : 0 ≤ fract) (result : Option (List UInt8)) (accepted : op_fnj3 v width fract = .ok result) :
    result = .some (justified width.toNat (fixedText v.value fract.toNat)) ∧
      ((justified width.toNat (fixedText v.value fract.toNat)).length : Int) ≤
        width + MAX_NUM_SIZE + 2 + fract ∧
      ∀ u : Mval, (u.IsInt ∨ u.IsFloat) → u.value = v.value →
        op_fnj3 u width fract = op_fnj3 v width fract := by
  have fits := accepted_of_ok wide accepted
  have number : MAX_NUM_SIZE = 64 := rfl
  have written := op_fnj3_of_accepted valid wide places fits
  refine ⟨?_, ?_, ?_⟩
  · rw [written] at accepted
    exact (Except.ok.inj accepted).symm
  · have length := fixedText_length (value_le valid) fract.toNat
    rw [justified, List.length_append, List.length_replicate]
    omega
  · intro u valid' same
    rw [written, op_fnj3_of_accepted valid' wide places fits, same]

/-- The number -0.5, which is rounded to -1. -/
def minusHalf : Mval where
  mvtype := ⟨true, true, false, false, false⟩
  sgn := true
  e := 0
  m0 := 0
  m1 := -500
  str := []

theorem minusHalf_text : justifyThousandths minusHalf.m1 4 0 = some [0x20, 0x20, 0x2d, 0x31] := by
  decide +kernel

/-- `$JUSTIFY(-.5,4,0)` is `"  -1"`. -/
theorem op_fnj3_justifies_half :
    some [0x20, 0x20, 0x2d, 0x31] = some (justified (4 : Int).toNat (fixedText minusHalf.value (0 : Int).toNat)) ∧
      ((justified (4 : Int).toNat (fixedText minusHalf.value (0 : Int).toNat)).length : Int) ≤
        4 + MAX_NUM_SIZE + 2 + 0 ∧
      ∀ u : Mval, (u.IsInt ∨ u.IsFloat) → u.value = minusHalf.value →
        op_fnj3 u 4 0 = op_fnj3 minusHalf 4 0 :=
  op_fnj3_justifies minusHalf (.inl ⟨rfl, rfl, by decide⟩) 4 0 (by decide) (by decide)
    (some [0x20, 0x20, 0x2d, 0x31]) (congrArg Except.ok minusHalf_text)

end Ydb.NumberJustification
