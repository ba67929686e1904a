import Ydb.NumberJustification
import Ydb.NumericForms

/-!
# The text of a justified number

Both ways of writing produce the digits of the number of units that rounding leaves: first the
digits before the point, and from the remainder those behind it.
-/

namespace Ydb.NumberJustification

open Lib

theorem int4_of_lt {x : Nat} (small : x < 2 ^ 31) : int4 x = some x := if_pos small

/-! ## Thousandths -/

theorem shiftOut_eq {n : Nat} (small : n < 10 ^ 9) : shiftOut n (n / 100000000) = some (n * 10 % 10 ^ 9) := by
  have high : n / 100000000 * 100000000 ≤ n := Nat.div_mul_le_self n _
  have rest : (n - n / 100000000 * 100000000) * 10 = n * 10 % 10 ^ 9 := by omega
  rw [shiftOut, int4_of_lt (by omega), Option.bind_eq_bind, Option.bind_some, rest, int4_of_lt (by omega)]

theorem topDigit_eq (n : Nat) : n / 100000000 = n * 10 / 10 ^ 9 := by omega

theorem fractionDigits_nine {n : Nat} (small : n < 10 ^ 9) (digs : Nat) :
    (fractionDigits 10 (10 ^ 9) n (digs + 1)).map digitByte =
      digitByte (n / 100000000) :: (fractionDigits 10 (10 ^ 9) (n * 10 % 10 ^ 9) digs).map digitByte := by
  rw [fractionDigits_succ (by decide) (by decide) small, List.map_cons, topDigit_eq]

theorem wholeThousandths_eq (digs : Nat) {n : Nat} (small : n < 10 ^ 9) :
    wholeThousandths digs n =
      some ((fractionDigits 10 (10 ^ 9) n digs).map digitByte, n * 10 ^ digs % 10 ^ 9) := by
  induction digs generalizing n with
  | zero => rw [wholeThousandths, Nat.pow_zero, Nat.mul_one, Nat.mod_eq_of_lt small, fractionDigits_none,
      List.map_nil]
  | succ digs ih =>
    have below : n * 10 % 10 ^ 9 < 10 ^ 9 := Nat.mod_lt _ (by decide)
    have rest : n * 10 % 10 ^ 9 * 10 ^ digs % 10 ^ 9 = n * 10 ^ (digs + 1) % 10 ^ 9 := by
      rw [Nat.mod_mul_mod, Nat.mul_assoc, ← Nat.pow_succ']
    simp only [wholeThousandths, shiftOut_eq small, ih below, Option.bind_eq_bind,
      Option.bind_some, Option.pure_def, fractionDigits_nine small, rest]

theorem fractThousandths_eq (digs : Nat) {n : Nat} (small : n < 10 ^ 9) :
    fractThousandths digs n = some ((fractionDigits 10 (10 ^ 9) n digs).map digitByte) := by
  induction digs generalizing n with
  | zero => rfl
  | succ digs ih =>
    rw [fractThousandths]
    by_cases some' : n ≠ 0
    · have below : n * 10 % 10 ^ 9 < 10 ^ 9 := Nat.mod_lt _ (by decide)
      rw [if_pos some']
      simp only [shiftOut_eq small, ih below, Option.bind_eq_bind, Option.bind_some,
        Option.pure_def, fractionDigits_nine small]
    · rw [not_not] at some'
      rw [if_neg (not_not.mpr some'), some', fractionDigits_zero, List.map_replicate]
      rfl

/-- The first digit goes to the top. -/
theorem scaleThousandths_eq (digs : Nat) {n : Nat} (large : 10 ^ 9 ≤ n * 10 ^ digs) (small : n < 10 ^ 9) :
    ∃ k d, digs = k + (d + 1) ∧ scaleThousandths digs n = some (d + 1, n * 10 ^ k) ∧ 10 ^ 8 ≤ n * 10 ^ k ∧
      n * 10 ^ k < 10 ^ 9 := by
  induction digs generalizing n with
  | zero =>
    rw [Nat.pow_zero, Nat.mul_one] at large
    omega
  | succ digs ih =>
    rw [scaleThousandths]
    by_cases low : n < 100000000
    · have large' : 10 ^ 9 ≤ n * 10 * 10 ^ digs := by
        rw [Nat.mul_assoc, ← Nat.pow_succ']
        exact large
      obtain ⟨k, d, total, found, least, most⟩ := ih large' (by omega)
      have power : n * 10 * 10 ^ k = n * 10 ^ (k + 1) := by
        rw [Nat.mul_assoc, ← Nat.pow_succ']
      rw [power] at found least most
      refine ⟨k + 1, d, by omega, ?_, least, most⟩
      rw [if_pos low, int4_of_lt (by omega)]
      exact found
    · refine ⟨0, digs, by omega, ?_, by omega, by omega⟩
      rw [if_neg low, Nat.pow_zero, Nat.mul_one]

/-- What is written before the point, and what is left for the digits behind it. -/
def Lead (n : Nat) (sign : Bool) (fract : Nat) : Prop :=
  ∃ digs x, leadThousandths n sign fract = some (sign && decide (n * 10 ^ fract / 1000 ≠ 0), digs, x) ∧
    (if digs = 0 then 1 else digs) = (numeral 10 (n / 1000)).length ∧
    ∃ rest < 10 ^ 9, writeWhole digs x = some ((numeral 10 (n / 1000)).map digitByte, rest) ∧
      fractionDigits 10 (10 ^ 9) rest fract = digits 10 fract (n * 10 ^ fract / 1000)

/-- The digits behind the point are those of the thousandths. -/
theorem fraction_of_rest (n fract : Nat) :
    fractionDigits 10 (10 ^ 9) (n % 1000 * 10 ^ 6) fract = digits 10 fract (n * 10 ^ fract / 1000) := by
  have thousand : (10 : Nat) ^ 9 = 1000 * 10 ^ 6 := by decide
  have whole := fractionDigits_remainder (b := 10) (m := 1000) (by decide) n 0 fract
  rw [Nat.zero_add, Nat.pow_zero, Nat.mul_one] at whole
  rw [thousand, fractionDigits_mul (by decide), whole]

/-- The units are none only for fewer than a thousand thousandths. -/
theorem units_ne_zero {n : Nat} (large : 1000 ≤ n) (fract : Nat) : n * 10 ^ fract / 1000 ≠ 0 := by
  have power : 1 ≤ 10 ^ fract := Nat.pow_pos (by decide)
  have product := Nat.mul_le_mul large power
  omega

theorem lead_small {n : Nat} (small : n < 1000) (sign : Bool) (fract : Nat)
    (nonzero : sign = true → 4 ≤ fract → n ≠ 0) : Lead n sign fract := by
  have whole : n / 1000 = 0 := by omega
  have less : n % 1000 = n := Nat.mod_eq_of_lt small
  have rest := fraction_of_rest n fract
  rw [less] at rest
  unfold Lead
  rw [leadThousandths, if_pos small, whole]
  by_cases vanishes : sign = true ∧ fract < 4 ∧ n / ten_pwr (3 - fract) = 0
  · obtain ⟨rfl, few, none⟩ := vanishes
    have units : n * 10 ^ fract / 1000 = 0 := by
      interval_cases fract <;> simp [ten_pwr] at none ⊢ <;> omega
    refine ⟨0, 0, ?_, rfl, 0, by decide, rfl, ?_⟩
    · rw [if_pos ⟨rfl, few, none⟩, units]
      rfl
    · rw [units, fractionDigits_zero, digits_zero]
  · have kept : (sign && decide (n * 10 ^ fract / 1000 ≠ 0)) = sign := by
      cases sign with
      | false => rfl
      | true =>
        have units : n * 10 ^ fract / 1000 ≠ 0 := by
          by_cases few : fract < 4
          · have some' : n / ten_pwr (3 - fract) ≠ 0 := fun none => vanishes ⟨rfl, few, none⟩
            interval_cases fract <;> simp [ten_pwr] at some' ⊢ <;> omega
          · have positive := nonzero rfl (by omega)
            obtain ⟨more, rfl⟩ := Nat.exists_eq_add_of_le (Nat.le_of_not_lt few)
            have power : 1 ≤ 10 ^ more := Nat.pow_pos (by decide)
            have product := Nat.mul_le_mul (Nat.one_le_iff_ne_zero.mpr positive) power
            rw [Nat.pow_add, ← Nat.mul_assoc, Nat.mul_right_comm]
            omega
        rw [decide_eq_true units]
        rfl
    refine ⟨0, n * 10 ^ 6, ?_, rfl, n * 10 ^ 6, by omega, rfl, rest⟩
    rw [if_neg vanishes, kept, int4_of_lt (by omega)]
    rfl

theorem lead_large {n : Nat} (large : 1000 ≤ n) (small : n < 10 ^ 9) (sign : Bool) (fract : Nat) :
    Lead n sign fract := by
  obtain ⟨k, d, total, found, least, most⟩ := scaleThousandths_eq 6 (n := n) (by omega) small
  have product : n * 10 ^ k * 10 ^ (d + 1) = n * 10 ^ 6 := by
    rw [Nat.mul_assoc, ← Nat.pow_add, total]
  have whole : fractionDigits 10 (10 ^ 9) (n * 10 ^ k) (d + 1) = numeral 10 (n / 1000) := by
    have thousandths : n * 10 ^ k * 10 ^ (d + 1) / 10 ^ 9 = n / 1000 := by
      rw [product]
      omega
    have lo : 10 ^ d ≤ n / 1000 := by
      rw [← thousandths, Nat.le_div_iff_mul_le (by decide)]
      have scaled := Nat.mul_le_mul_right (10 ^ (d + 1)) least
      rw [Nat.pow_succ 10 d] at scaled ⊢
      omega
    have hi : n / 1000 < 10 ^ (d + 1) := by
      rw [← thousandths, Nat.div_lt_iff_lt_mul (by decide), Nat.mul_comm]
      exact Nat.mul_lt_mul_of_pos_left most (Nat.pow_pos (by decide))
    rw [numeral_eq (by decide) lo hi, fractionDigits, thousandths]
  have rest : n * 10 ^ k * 10 ^ (d + 1) % 10 ^ 9 = n % 1000 * 10 ^ 6 := by
    rw [product]
    omega
  have few : d + 1 ≠ 0 ∧ d + 1 ≠ 7 := by omega
  refine ⟨d + 1, n * 10 ^ k, ?_, ?_, n % 1000 * 10 ^ 6, by omega, ?_, fraction_of_rest n fract⟩
  · rw [leadThousandths, if_neg (by omega), if_neg (by omega), found, decide_eq_true (units_ne_zero large fract),
      Bool.and_true]
    rfl
  · rw [if_neg few.1, ← whole, fractionDigits_length]
  · rw [writeWhole, if_neg few.1, if_neg few.2, wholeThousandths_eq _ most, whole, rest]

/-- After an overflow by one digit there are seven digits before the point. -/
theorem lead_overflow {n : Nat} (large : 10 ^ 9 ≤ n) (small : n < 10 ^ 9 + 1000) (sign : Bool) (fract : Nat) :
    Lead n sign fract := by
  have whole : numeral 10 (n / 1000) = 1 :: fractionDigits 10 (10 ^ 9) (n - 1000000000) 6 := by
    have top : n / 1000 / 10 ^ 6 % 10 = 1 := by omega
    have low : n / 1000 = (n - 1000000000) * 10 ^ 6 / 10 ^ 9 + 10 ^ 6 * 1 := by omega
    rw [numeral_eq (by decide : 1 < 10) (k := 6) (by omega) (by omega), digits, top, fractionDigits]
    conv_lhs => rw [low]
    rw [digits_add_mul]
  have rest : (n - 1000000000) * 10 ^ 6 % 10 ^ 9 = n % 1000 * 10 ^ 6 := by omega
  refine ⟨7, n, ?_, ?_, n % 1000 * 10 ^ 6, by omega, ?_, fraction_of_rest n fract⟩
  · rw [leadThousandths, if_neg (by omega), if_pos (by omega),
      decide_eq_true (units_ne_zero (by omega : 1000 ≤ n) fract), Bool.and_true]
  · rw [whole, List.length_cons, fractionDigits_length]
    rfl
  · have seven : (7 : Nat) ≠ 0 := by decide
    rw [writeWhole, if_neg seven, if_pos rfl, wholeThousandths_eq 6 (by omega), whole, rest]
    rfl

theorem lead_eq {n : Nat} (small : n < 10 ^ 9 + 1000) (sign : Bool) (fract : Nat)
    (nonzero : sign = true → 4 ≤ fract → n ≠ 0) : Lead n sign fract := by
  rcases Nat.lt_or_ge n 1000 with tiny | large
  · exact lead_small tiny sign fract nonzero
  · rcases Nat.lt_or_ge n (10 ^ 9) with fits | over'
    · exact lead_large large fits sign fract
    · exact lead_overflow over' small sign fract

/-! ## Assembling -/

/-- The digits of a number of units around the point. -/
def unitsText (sign : Bool) (units fract : Nat) : List UInt8 :=
  minusSign sign ++ (numeral 10 (units / 10 ^ fract)).map digitByte ++
    if fract ≠ 0 then Ascii.dot :: (digits 10 fract (units % 10 ^ fract)).map digitByte else []

theorem unitsText_length (sign : Bool) (units fract : Nat) :
    (unitsText sign units fract).length =
      (if sign then 1 else 0) + (numeral 10 (units / 10 ^ fract)).length +
        if fract ≠ 0 then fract + 1 else 0 := by
  unfold unitsText minusSign
  cases sign <;> by_cases none : fract = 0 <;> simp [none] <;> omega

/-- As many spaces as the text is short of the width. -/
theorem spaces_append {w : Int} {width : Nat} {text : List UInt8} (short : w = width - text.length) :
    spaces w ++ text = justified width text := by
  have count : w.toNat = width - text.length := by omega
  rw [spaces, justified, count]

/-- Only the low digits of the units stand behind the point. -/
theorem digits_units (fract units : Nat) :
    digits 10 fract (units % 10 ^ fract) = digits 10 fract units :=
  digits_mod 10 fract units fract le_rfl

theorem units_div (n fract : Nat) : n * 10 ^ fract / 1000 / 10 ^ fract = n / 1000 := by
  rw [Nat.div_right_comm, Nat.mul_div_cancel _ (Nat.pow_pos (by decide))]

theorem writeThousandths_eq {n : Nat} {sign : Bool} {fract : Nat} (width : Nat) (lead : Lead n sign fract) :
    (leadThousandths n sign fract).bind (fun r => writeThousandths width fract r.1 r.2.1 r.2.2) =
      some (justified width (unitsText (sign && decide (n * 10 ^ fract / 1000 ≠ 0)) (n * 10 ^ fract / 1000)
        fract)) := by
  obtain ⟨digs, x, found, count, rest, small, whole, after⟩ := lead
  generalize (sign && decide (n * 10 ^ fract / 1000 ≠ 0)) = sign' at found ⊢
  have length := unitsText_length sign' (n * 10 ^ fract / 1000) fract
  have low := fractThousandths_eq fract small
  rw [units_div, ← count] at length
  rw [after] at low
  rw [found, Option.bind_some, writeThousandths]
  simp only [whole, Option.bind_eq_bind, Option.bind_some, Option.pure_def]
  have tail : writeFraction fract rest =
      some (if fract ≠ 0 then Ascii.dot :: (digits 10 fract (n * 10 ^ fract / 1000)).map digitByte else []) := by
    rw [writeFraction, low]
    split <;> rfl
  rw [tail, Option.bind_some, List.append_assoc, List.append_assoc, ← List.append_assoc (minusSign sign')]
  congr 1
  have text : minusSign sign' ++ (numeral 10 (n / 1000)).map digitByte ++
      (if fract ≠ 0 then Ascii.dot :: (digits 10 fract (n * 10 ^ fract / 1000)).map digitByte else []) =
      unitsText sign' (n * 10 ^ fract / 1000) fract := by
    rw [unitsText, units_div, digits_units]
  rw [text]
  apply spaces_append
  rw [length]
  split <;> split <;> split <;> push_cast <;> omega

/-- A number of thousandths in units of the last digit. -/
theorem roundThousandths_eq {q : ℚ} {n : Nat} (magnitude : |q| = n / 1000) (small : n < 10 ^ 9) (fract : Nat) :
    ∃ rounded, roundThousandths n fract = some rounded ∧ rounded < 10 ^ 9 + 1000 ∧
      roundedUnits 10 fract q = rounded * 10 ^ fract / 1000 ∧ (3 ≤ fract → rounded = n) := by
  unfold roundThousandths
  by_cases few : fract < 3
  · rw [if_pos few]
    have half : ∃ h, fives_table (fract + 6) = h ∧ 0 < h ∧ h ≤ 500 ∧ 2 * h * 10 ^ fract = 1000 := by
      interval_cases fract
      · exact ⟨500, rfl, by decide, by decide, rfl⟩
      · exact ⟨50, rfl, by decide, by decide, rfl⟩
      · exact ⟨5, rfl, by decide, by decide, rfl⟩
    obtain ⟨h, entry, positive, most, thousand⟩ := half
    have parts : |q| * ((10 : Nat) : ℚ) ^ fract = n / (2 * h) := by
      have thousand' : (2 : ℚ) * h * 10 ^ fract = 1000 := by exact_mod_cast thousand
      have nonzero : (h : ℚ) ≠ 0 := Nat.cast_ne_zero.mpr (Nat.ne_of_gt positive)
      rw [magnitude, ← thousand']
      push_cast
      field_simp
    have units : (n + h) * 10 ^ fract / 1000 = (n + h) / (2 * h) := by
      rw [← thousand, Nat.mul_div_mul_right _ _ (Nat.pow_pos (by decide))]
    refine ⟨n + h, ?_, by omega, ?_, by omega⟩
    · rw [entry, int4_of_lt (by omega)]
    · rw [roundedUnits_eq positive parts, units]
  · rw [if_neg few]
    obtain ⟨more, rfl⟩ := Nat.exists_eq_add_of_le (Nat.le_of_not_lt few)
    have units : n * 10 ^ (3 + more) / 1000 = n * 10 ^ more := by
      have thousand : n * 10 ^ (3 + more) = n * 10 ^ more * 1000 := by
        rw [Nat.pow_add]
        ring
      rw [thousand, Nat.mul_div_cancel _ (by decide)]
    have whole : |q| * ((10 : Nat) : ℚ) ^ (3 + more) = ((n * 10 ^ more : Nat) : ℚ) := by
      rw [magnitude, pow_add]
      push_cast
      ring
    exact ⟨n, int4_of_lt (by omega), by omega, by rw [roundedUnits_of_whole whole, units], fun _ => rfl⟩

/-- The text of a justified integer. -/
theorem justifyThousandths_eq {m1 : Int} (small : m1.natAbs < 10 ^ 9) (width fract : Nat) :
    justifyThousandths m1 width fract = some (justified width (fixedText (m1 / 1000) fract)) := by
  have magnitude : |(m1 : ℚ) / 1000| = m1.natAbs / 1000 := by
    rw [abs_div, Nat.cast_natAbs, Int.cast_abs]
    norm_num
  obtain ⟨rounded, found, most, units, same⟩ := roundThousandths_eq magnitude small fract
  have nonzero : decide (m1 < 0) = true → 4 ≤ fract → rounded ≠ 0 := by
    intro negative many
    rw [same (by omega)]
    have less := of_decide_eq_true negative
    omega
  have negative : (m1 : ℚ) / 1000 < 0 ↔ m1 < 0 := by
    rw [div_lt_iff₀ (by norm_num), zero_mul, Int.cast_lt_zero]
  have sign : (decide (m1 < 0) && decide (rounded * 10 ^ fract / 1000 ≠ 0)) =
      decide ((m1 : ℚ) / 1000 < 0 ∧ rounded * 10 ^ fract / 1000 ≠ 0) := by
    rw [← Bool.decide_and]
    exact decide_eq_decide.mpr (and_congr_left fun _ => negative.symm)
  have written := writeThousandths_eq width (lead_eq most (decide (m1 < 0)) fract nonzero)
  have text : fixedText (m1 / 1000) fract =
      unitsText (decide ((m1 : ℚ) / 1000 < 0 ∧ rounded * 10 ^ fract / 1000 ≠ 0))
        (rounded * 10 ^ fract / 1000) fract := by
    rw [fixedText, units]
    rfl
  rw [justifyThousandths, int4_of_lt (by omega), Option.bind_eq_bind, Option.bind_some, found, Option.bind_eq_bind,
    Option.bind_some, text, ← sign]
  exact written

end Ydb.NumberJustification
