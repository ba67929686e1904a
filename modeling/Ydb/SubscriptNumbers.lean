import Ydb.SubscriptEncoding

/-!
# Numeric subscripts as decimals

Whatever its internal form, a number is encoded from the one decimal it denotes:
the exponent byte, then the pairs of its eighteen digits without trailing zero
pairs. A negative number has the complement of that code, closed by the
complement of zero.
-/

namespace Ydb

open Lib

/-! ## Codes of pairs -/

theorem pos_code_eq (pair : Nat) (small : pair < 100) :
    pos_code.getD pair 0 = UInt8.ofNat (pair / 10 * 16 + pair % 10 + 1) := by
  simp [pos_code, List.getD_eq_getElem?_getD, small]

theorem neg_code_eq (pair : Nat) (small : pair < 100) :
    neg_code.getD pair 0 = ~~~ pos_code.getD pair 0 := by
  rw [pos_code_eq pair small]
  simp only [neg_code, List.getD_eq_getElem?_getD, List.getElem?_map, List.getElem?_range small,
    Option.map_some, Option.getD_some]
  interval_cases pair <;> rfl

theorem pos_code_toNat (pair : Nat) (small : pair < 100) :
    (pos_code.getD pair 0).toNat = pair / 10 * 16 + pair % 10 + 1 := by
  rw [pos_code_eq pair small, UInt8.toNat_ofNat']
  omega

/-- Complement the bytes of a negative number. -/
def signedBytes (neg : Bool) (bytes : List UInt8) : List UInt8 :=
  if neg then bytes.map (fun b => ~~~ b) else bytes

theorem map_cvtTable (neg : Bool) (pairs : List Nat) (small : ∀ p ∈ pairs, p < 100) :
    pairs.map (cvtTable neg) = signedBytes neg (pairs.map (pos_code.getD · 0)) := by
  cases neg
  · rfl
  · simp only [signedBytes, if_true, List.map_map]
    apply List.map_congr_left
    intro p member
    exact neg_code_eq p (small p member)

namespace Decimal

/-- The digit pairs of the mantissa, without trailing zero pairs. -/
def pairs (d : Decimal) : List Nat := stripZeros (digits 100 9 d.mant)

/-- The code of the magnitude. -/
def magnitudeCode (d : Decimal) : List UInt8 :=
  UInt8.ofNat (d.exp + SUBSCRIPT_BIAS).toNat :: d.pairs.map (pos_code.getD · 0)

/-- The code of a decimal as a subscript. -/
def code (d : Decimal) : List UInt8 :=
  if d.neg then (d.magnitudeCode ++ [0]).map (fun b => ~~~ b) else d.magnitudeCode

theorem pairs_lt (d : Decimal) : ∀ p ∈ d.pairs, p < 100 :=
  fun p member => digits_lt 100 9 d.mant (by decide) p (stripZeros_subset _ p member)

/-- The first pair has a nonzero tens digit. -/
theorem pairs_head (d : Decimal) : ∃ first rest, d.pairs = first :: rest ∧ 10 ≤ first := by
  have lo := d.lo
  have hi := d.hi
  have first : d.mant / 100 ^ 8 % 100 = d.mant / 100 ^ 8 := Nat.mod_eq_of_lt (by omega)
  refine ⟨d.mant / 100 ^ 8 % 100, stripZeros (digits 100 8 d.mant), ?_, by omega⟩
  rw [pairs, digits, stripZeros_cons_of_ne _ _ (by omega)]

/-- A number is finished as the code of its decimal. -/
theorem finishNumber_eq (d : Decimal) (exp_val : Nat) (mantissa : List UInt8)
    (exponent : (exp_val : Int) = d.exp + SUBSCRIPT_BIAS)
    (converted : mantissa = d.pairs.map (cvtTable d.neg)) :
    finishNumber d.neg (exponentByte d.neg exp_val :: mantissa) = d.code := by
  have power : (d.exp + SUBSCRIPT_BIAS).toNat = exp_val := by omega
  rw [converted, map_cvtTable d.neg d.pairs d.pairs_lt, code, magnitudeCode, power]
  cases d.neg
  · rfl
  · simp [finishNumber, exponentByte, signedBytes]
    rfl

end Decimal

/-! ## Integers -/

/-- What is left of an integer without its last pair still fills its pairs. -/
theorem leading_div {k m : Nat} (lo : 100 ^ (k + 1) ≤ 100 * m ∨ k + 1 = 0) (hi : m < 100 ^ (k + 1)) :
    m ≠ 0 ∧ (100 ^ k ≤ 100 * (m / 100) ∨ k = 0) ∧ m / 100 < 100 ^ k := by
  have power : 0 < 100 ^ (k + 1) := Nat.pow_pos (by decide)
  refine ⟨by omega, ?_, ?_⟩
  · by_cases last : k = 0
    · exact .inr last
    · obtain ⟨j, rfl⟩ := Nat.exists_eq_succ_of_ne_zero last
      rw [Nat.pow_succ, Nat.pow_succ] at lo
      rw [Nat.pow_succ]
      omega
  · rw [Nat.pow_succ] at hi
    omega

theorem finishIntegers_eq (cvt : Nat → UInt8) (k room m : Nat) (tm : List UInt8) (fits : k ≤ room)
    (lo : 100 ^ k ≤ 100 * m ∨ k = 0) (hi : m < 100 ^ k) :
    finishIntegers cvt room m tm = (digits 100 k m).map cvt ++ tm := by
  induction k generalizing room m tm with
  | zero =>
    have none : m = 0 := by simpa using hi
    cases room <;> simp [finishIntegers, none, digits]
  | succ k ih =>
    obtain ⟨room, rfl⟩ : ∃ j, room = j + 1 := ⟨room - 1, by omega⟩
    obtain ⟨positive, above, below⟩ := leading_div lo hi
    have low : m - m / 100 * 100 = m % 100 := by omega
    rw [finishIntegers, if_neg positive, ih room (m / 100) _ (by omega) above below, digits_snoc, low, List.map_append]
    simp

theorem keepStriping_eq (cvt : Nat → UInt8) (k room m : Nat) (fits : k ≤ room)
    (lo : 100 ^ k ≤ 100 * m ∨ k = 0) (hi : m < 100 ^ k) :
    keepStriping cvt room m = (stripZeros (digits 100 k m)).map cvt := by
  induction k generalizing room m with
  | zero =>
    have none : m = 0 := by simpa using hi
    cases room <;> simp [keepStriping, none, digits, stripZeros]
  | succ k ih =>
    obtain ⟨room, rfl⟩ : ∃ j, room = j + 1 := ⟨room - 1, by omega⟩
    obtain ⟨positive, above, below⟩ := leading_div lo hi
    have low : m - m / 100 * 100 = m % 100 := by omega
    rw [keepStriping, if_neg positive, low, digits_snoc]
    by_cases zero : m % 100 = 0
    · rw [if_neg (by simp [zero]), ih room (m / 100) (by omega) above below,
        zero, stripZeros_concat_zero]
    · rw [if_pos zero, finishIntegers_eq cvt k room (m / 100) _ (by omega) above below,
        stripZeros_concat _ _ zero, List.map_append]
      rfl

/-- An integer of an even number of digits. -/
theorem evenInteger_eq (cvt : Nat → UInt8) (k m : Nat) (fits : k ≤ 9)
    (lo : 100 ^ k ≤ 100 * m ∨ k = 0) (hi : m < 100 ^ k) :
    evenInteger cvt m = (stripZeros (digits 100 k m)).map cvt :=
  keepStriping_eq cvt k TEMP_MANTISSA m (by simp only [TEMP_MANTISSA, NUM_DEC_DG_2L]; omega) lo hi

/-- An integer of an odd number of digits is encoded as its tenfold multiple. -/
theorem oddInteger_eq (cvt : Nat → UInt8) (k m : Nat) (fits : k ≤ 8)
    (lo : 100 ^ k ≤ m) (hi : m < 10 * 100 ^ k) :
    oddInteger cvt m = (stripZeros (digits 100 (k + 1) (m * 10))).map cvt := by
  have low : m - m / 10 * 10 = m % 10 := by omega
  have room : k ≤ TEMP_MANTISSA := by simp only [TEMP_MANTISSA, NUM_DEC_DG_2L]; omega
  have above : 100 ^ k ≤ 100 * (m / 10) ∨ k = 0 := by
    by_cases last : k = 0
    · exact .inr last
    · obtain ⟨j, rfl⟩ := Nat.exists_eq_succ_of_ne_zero last
      rw [Nat.pow_succ] at lo ⊢
      omega
  have last : m * 10 % 100 = m % 10 * 10 := by omega
  have before : m * 10 / 100 = m / 10 := by omega
  rw [oddInteger, low, digits_snoc, last, before]
  by_cases zero : m % 10 = 0
  · rw [if_neg (by simp [zero]), keepStriping_eq cvt k _ (m / 10) room above (by omega), zero,
      Nat.zero_mul, stripZeros_concat_zero]
  · rw [if_pos zero, finishIntegers_eq cvt k _ (m / 10) _ room above (by omega),
      stripZeros_concat _ _ (by omega), List.map_append]
    rfl

/-- The pairs of a thousandfold integer of an even number of digits. -/
theorem pairs_even (k m : Nat) (narrow : k ≤ 9) :
    stripZeros (digits 100 9 (m * 10 ^ (18 - 2 * k))) = stripZeros (digits 100 k m) := by
  have power : 10 ^ (18 - 2 * k) = 100 ^ (9 - k) := by
    rw [show (100 : Nat) = 10 ^ 2 by norm_num, ← Nat.pow_mul]
    congr 1
    omega
  conv_lhs => rw [power, show 9 = k + (9 - k) by omega]
  rw [show k + (9 - k) - k = 9 - k by omega, digits_shift _ _ _ _ (by decide),
    stripZeros_append_replicate]

theorem pairs_odd (k m : Nat) (narrow : k ≤ 8) :
    stripZeros (digits 100 9 (m * 10 ^ (18 - (2 * k + 1)))) =
      stripZeros (digits 100 (k + 1) (m * 10)) := by
  have even := pairs_even (k + 1) (m * 10) (by omega)
  rw [← even]
  congr 2
  rw [Nat.mul_assoc, ← Nat.pow_succ']
  congr 2
  omega

/-- The digits of an integer by its width: the exponent byte follows the width,
and odd and even widths pair their digits differently. -/
theorem encodeInteger_of_width (m1 : Int) (n : Nat) (narrow : n ≤ 9) (some : 1 ≤ n)
    (lo : 10 ^ (n - 1) ≤ m1.natAbs) (hi : m1.natAbs < 10 ^ n) :
    encodeInteger m1 = finishNumber (decide (m1 < 0))
      (exponentByte (decide (m1 < 0)) (SUBSCRIPT_BIAS + n - 3) ::
        (stripZeros (digits 100 9 (m1.natAbs * 10 ^ (18 - n)))).map
          (cvtTable (decide (m1 < 0)))) := by
  have positive : 0 < 10 ^ (n - 1) := Nat.pow_pos (by decide)
  have nonzero : m1 ≠ 0 := by omega
  have single : ∀ p, p ≠ 0 → stripZeros [p] = [p] := fun p nonzero => stripZeros_concat [] p nonzero
  rw [encodeInteger, if_neg nonzero]
  dsimp only
  generalize cvtTable (decide (m1 < 0)) = cvt
  generalize exponentByte (decide (m1 < 0)) = exponent
  congr 1
  generalize m1.natAbs = m at lo hi
  rcases (by omega : n = 1 ∨ n = 2 ∨ n = 3 ∨ n = 4 ∨ n = 5 ∨ n = 6 ∨ n = 7 ∨ n = 8 ∨ n = 9) with
    rfl | rfl | rfl | rfl | rfl | rfl | rfl | rfl | rfl <;> norm_num at lo hi
  · rw [if_pos (by omega), pairs_odd 0 m (by omega), digits, digits, Nat.pow_zero, Nat.div_one,
      Nat.mod_eq_of_lt (by omega), single _ (by omega)]
    rfl
  · rw [if_neg (by omega), if_pos (by omega), pairs_even 1 m (by omega), digits, digits,
      Nat.pow_zero, Nat.div_one, Nat.mod_eq_of_lt (by omega), single _ (by omega)]
    rfl
  · rw [if_neg (by omega), if_neg (by omega), if_pos (by omega), pairs_odd 1 m (by omega),
      oddInteger_eq cvt 1 m (by omega) (by omega) (by omega)]
    rfl
  · rw [if_neg (by omega), if_neg (by omega), if_neg (by omega), if_pos (by omega),
      pairs_even 2 m (by omega), evenInteger_eq cvt 2 m (by omega) (by omega) (by omega)]
    rfl
  · rw [if_neg (by omega), if_neg (by omega), if_neg (by omega), if_neg (by omega),
      if_pos (by omega), pairs_odd 2 m (by omega),
      oddInteger_eq cvt 2 m (by omega) (by omega) (by omega)]
    rfl
  · rw [if_neg (by omega), if_neg (by omega), if_neg (by omega), if_neg (by omega),
      if_neg (by omega), if_pos (by omega), pairs_even 3 m (by omega),
      evenInteger_eq cvt 3 m (by omega) (by omega) (by omega)]
    rfl
  · rw [if_neg (by omega), if_neg (by omega), if_neg (by omega), if_neg (by omega),
      if_neg (by omega), if_neg (by omega), if_pos (by omega), pairs_odd 3 m (by omega),
      oddInteger_eq cvt 3 m (by omega) (by omega) (by omega)]
    rfl
  · rw [if_neg (by omega), if_neg (by omega), if_neg (by omega), if_neg (by omega),
      if_neg (by omega), if_neg (by omega), if_neg (by omega), if_pos (by omega),
      pairs_even 4 m (by omega), evenInteger_eq cvt 4 m (by omega) (by omega) (by omega)]
    rfl
  · rw [if_neg (by omega), if_neg (by omega), if_neg (by omega), if_neg (by omega),
      if_neg (by omega), if_neg (by omega), if_neg (by omega), if_neg (by omega),
      pairs_odd 4 m (by omega), oddInteger_eq cvt 4 m (by omega) (by omega) (by omega)]
    rfl

/-- A nonzero `MV_INT` value is encoded as its decimal. -/
theorem encodeNumber_int {v : Mval} (isInt : v.IsInt) (nonzero : v.m1 ≠ 0) (d : Decimal)
    (same : d.value = v.value) : encodeNumber v = d.code := by
  obtain ⟨n, narrow, some, lo, hi, value⟩ := isInt.decimal nonzero
  have decimals := Decimal.value_injective (same.trans value.symm)
  rw [encodeNumber, isInt.int, if_pos rfl, encodeInteger_of_width v.m1 n narrow some lo hi,
    decimals]
  apply Decimal.finishNumber_eq (Decimal.ofThousandths _ v.m1.natAbs n narrow some lo hi)
  · simp only [Decimal.ofThousandths, SUBSCRIPT_BIAS]
    omega
  · rfl

/-! ## Floats -/

/-- The top pair of a word that holds `k + 1` pairs at its upper end. -/
theorem topPair_eq (k x scale : Nat) (aligned : 100 ^ k * scale = 10 ^ 7) :
    topPair (x * scale) = (x / 100 ^ k, x % 100 ^ k * (scale * 100)) := by
  have positive : 0 < scale := by
    rcases Nat.eq_zero_or_pos scale with zero | positive
    · rw [zero] at aligned
      simp at aligned
    · exact positive
  have top : x * scale / 10 ^ 7 = x / 100 ^ k := by
    rw [← aligned, Nat.mul_div_mul_right _ _ positive]
  have split : x * scale = x / 100 ^ k * 10 ^ 7 + x % 100 ^ k * scale := by
    conv_lhs => rw [← Nat.div_add_mod x (100 ^ k)]
    rw [← aligned]
    ring
  rw [topPair, show MANT_HI / 100 = 10 ^ 7 from rfl, top, split, Nat.add_sub_cancel_left,
    Nat.mul_assoc]

theorem pair_step (k x : Nat) (small : x < 100 ^ (k + 1)) :
    digits 100 (k + 1) x = x / 100 ^ k :: digits 100 k (x % 100 ^ k) := by
  rw [digits, digits_mod 100 k x k le_rfl, Nat.mod_eq_of_lt]
  rw [Nat.pow_succ] at small
  exact Nat.div_lt_of_lt_mul small

theorem scale_step (k scale : Nat) (aligned : 100 ^ (k + 1) * scale = 10 ^ 9) :
    100 ^ k * scale = 10 ^ 7 := by
  have shifted : 100 * (100 ^ k * scale) = 10 ^ 9 := by
    rw [← aligned, Nat.pow_succ]
    ring
  omega

theorem convertPairs_eq (cvt : Nat → UInt8) (k n x scale : Nat) (fewer : n ≤ k)
    (aligned : 100 ^ k * scale = 10 ^ 9) (small : x < 100 ^ k) :
    convertPairs cvt n (x * scale) = ((digits 100 k x).take n).map cvt := by
  induction n generalizing k x scale with
  | zero => rfl
  | succ n ih =>
    obtain ⟨k, rfl⟩ : ∃ j, k = j + 1 := ⟨k - 1, by omega⟩
    have next : 100 ^ k * (scale * 100) = 10 ^ 9 := by
      rw [← aligned, Nat.pow_succ]
      ring
    rw [convertPairs, topPair_eq k x scale (scale_step k scale aligned), pair_step k x small,
      List.take_succ_cons, List.map_cons,
      ih k _ _ (by omega) next (Nat.mod_lt _ (Nat.pow_pos (by decide)))]

theorem stripZeros_digits_zero (b n : Nat) : stripZeros (digits b n 0) = [] := by
  have zeros := digits_leading_zeros b n 0 0 (by simp)
  rw [Nat.add_zero, digits, List.append_nil] at zeros
  rw [zeros, stripZeros_replicate]

theorem lastLongword_eq (cvt : Nat → UInt8) (k room x scale : Nat) (fits : k ≤ room)
    (aligned : 100 ^ k * scale = 10 ^ 9) (small : x < 100 ^ k) :
    lastLongword cvt room (x * scale) = (stripZeros (digits 100 k x)).map cvt := by
  induction k generalizing room x scale with
  | zero =>
    have none : x = 0 := by simpa using small
    cases room <;> simp [lastLongword, none, digits, stripZeros]
  | succ k ih =>
    obtain ⟨room, rfl⟩ : ∃ j, room = j + 1 := ⟨room - 1, by omega⟩
    have positive : 0 < scale := by
      rcases Nat.eq_zero_or_pos scale with zero | positive
      · rw [zero] at aligned
        simp at aligned
      · exact positive
    by_cases zero : x = 0
    · rw [lastLongword, if_pos (by rw [zero, Nat.zero_mul]), zero, stripZeros_digits_zero]
      rfl
    · have next : 100 ^ k * (scale * 100) = 10 ^ 9 := by
        rw [← aligned, Nat.pow_succ]
        ring
      have kept : ¬ (stripZeros (digits 100 k (x % 100 ^ k)) = [] ∧ x / 100 ^ k = 0) := by
        rintro ⟨vacant, quotient⟩
        have whole := stripZeros_digits_ne_nil 100 (k + 1) x (by omega) small
        rw [pair_step k x small, stripZeros_cons, if_pos ⟨vacant, quotient⟩] at whole
        exact whole rfl
      rw [lastLongword, if_neg (Nat.mul_ne_zero zero (by omega)),
        topPair_eq k x scale (scale_step k scale aligned), pair_step k x small, stripZeros_cons,
        if_neg kept, List.map_cons, ih room _ _ (by omega) next
          (Nat.mod_lt _ (Nat.pow_pos (by decide)))]

/-- The eighteen digits of the two words, in pairs. The middle pair takes a digit
from each word. -/
theorem encodeFloat_eq (sgn : Bool) (e m1 m0 : Nat) (lo : 10 ^ 8 ≤ m1) (hi : m1 < 10 ^ 9)
    (next : m0 < 10 ^ 9) :
    encodeFloat sgn e m1 m0 = finishNumber sgn
      (exponentByte sgn (e + SUBSCRIPT_BIAS - MV_XBIAS) ::
        (stripZeros (digits 100 9 (m1 * 10 ^ 9 + m0))).map (cvtTable sgn)) := by
  generalize cvt_eq : cvtTable sgn = cvt
  have first : topPair m1 = (m1 / 10 ^ 7, m1 % 10 ^ 7 * 100) := by
    simp only [topPair, show MANT_HI / 100 = 10 ^ 7 from rfl, Prod.mk.injEq, true_and]
    omega
  have upper : (m1 * 10 ^ 9 + m0) / 100 ^ 8 = m1 / 10 ^ 7 := by omega
  have lower : (m1 * 10 ^ 9 + m0) % 100 ^ 8 =
      (m1 % 10 ^ 7 * 10 + m0 / 10 ^ 8) * 100 ^ 4 + m0 % 10 ^ 8 := by omega
  have halves : digits 100 8 ((m1 % 10 ^ 7 * 10 + m0 / 10 ^ 8) * 100 ^ 4 + m0 % 10 ^ 8) =
      digits 100 4 (m1 % 10 ^ 7 * 10 + m0 / 10 ^ 8) ++ digits 100 4 (m0 % 10 ^ 8) :=
    digits_join 100 4 4 _ _ (Nat.mod_lt _ (by decide))
  have behind : (if m0 = 0 then lastLongword cvt 5 (m1 % 10 ^ 7 * 100)
      else if (m0 - m0 / (MANT_HI / 10) * (MANT_HI / 10)) * 10 = 0 then
        lastLongword cvt 5 (m1 % 10 ^ 7 * 100 + m0 / (MANT_HI / 10) * 10)
      else convertPairs cvt 4 (m1 % 10 ^ 7 * 100 + m0 / (MANT_HI / 10) * 10) ++
        lastLongword cvt 5 ((m0 - m0 / (MANT_HI / 10) * (MANT_HI / 10)) * 10)) =
      (stripZeros (digits 100 4 (m1 % 10 ^ 7 * 10 + m0 / 10 ^ 8) ++
        digits 100 4 (m0 % 10 ^ 8))).map cvt := by
    have tail : ∀ x, x < 10 ^ 8 → lastLongword cvt 5 (x * 10) =
        (stripZeros (digits 100 4 x)).map cvt :=
      fun x small => lastLongword_eq cvt 4 5 x 10 (by decide) (by decide) small
    have middle : m1 % 10 ^ 7 * 100 + m0 / 10 ^ 8 * 10 =
        (m1 % 10 ^ 7 * 10 + m0 / 10 ^ 8) * 10 := by ring
    have rest : (m0 - m0 / 10 ^ 8 * 10 ^ 8) * 10 = m0 % 10 ^ 8 * 10 := by omega
    rw [show MANT_HI / 10 = 10 ^ 8 from rfl, middle, rest]
    by_cases none : m0 % 10 ^ 8 = 0
    · have zeros : digits 100 4 (m0 % 10 ^ 8) = List.replicate 4 0 := by
        rw [none]
        rfl
      rw [zeros, stripZeros_append_replicate, ← tail _ (by omega), none, Nat.zero_mul,
        if_pos rfl]
      by_cases empty : m0 = 0
      · rw [if_pos empty, empty, Nat.zero_div, Nat.add_zero]
        congr 1
        omega
      · rw [if_neg empty]
    · have kept := stripZeros_digits_ne_nil 100 4 (m0 % 10 ^ 8) (by omega) (by omega)
      have pairs := convertPairs_eq cvt 4 4 (m1 % 10 ^ 7 * 10 + m0 / 10 ^ 8) 10 le_rfl
        (by decide) (by omega)
      rw [List.take_of_length_le (by rw [digits_length])] at pairs
      rw [if_neg (by omega), if_neg (by omega), stripZeros_append _ _ kept, List.map_append, pairs,
        tail _ (by omega)]
  rw [pair_step 8 _ (by omega), upper, lower, halves, stripZeros_cons_of_ne _ _ (by omega),
    List.map_cons, ← behind, encodeFloat, cvt_eq]
  simp only [first]

/-- A float is encoded as its decimal. -/
theorem encodeNumber_float {v : Mval} (isFloat : v.IsFloat) (d : Decimal)
    (same : d.value = v.value) : encodeNumber v = d.code := by
  have decimals : d = isFloat.toDecimal :=
    Decimal.value_injective (same.trans isFloat.toDecimal_value.symm)
  have bounds := isFloat.bounds
  rw [encodeNumber, isFloat.int, if_neg (by decide),
    encodeFloat_eq _ _ _ _ (by omega) (by omega) (by omega), decimals]
  apply isFloat.toDecimal.finishNumber_eq
  · simp only [Mval.IsFloat.toDecimal, SUBSCRIPT_BIAS, MV_XBIAS]
    omega
  · rfl

/-- The value zero is encoded as one byte. -/
theorem encodeNumber_zero {v : Mval} (isInt : v.IsInt) (zero : v.m1 = 0) :
    encodeNumber v = [SUBSCRIPT_ZERO] := by
  rw [encodeNumber, isInt.int, if_pos rfl, encodeInteger, if_pos zero]

/-- Either numeric form is encoded as the decimal it denotes. -/
theorem encodeNumber_eq {v : Mval} (valid : v.IsInt ∨ v.IsFloat) (d : Decimal)
    (same : d.value = v.value) : encodeNumber v = d.code := by
  rcases valid with isInt | isFloat
  · by_cases zero : v.m1 = 0
    · exact absurd (same.trans (isInt.value_eq_zero.mpr zero)) d.value_ne_zero
    · exact encodeNumber_int isInt zero d same
  · exact encodeNumber_float isFloat d same

end Ydb
