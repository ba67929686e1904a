import Ydb.NumericResults
import Ydb.Numerals

/-!
# Strings as numbers

Used as a number, a string stands for the longest numeral that it starts with, of
which `s2n` keeps eighteen digits. The number is right unless the cut of the
exponent to three digits, or an exponent that is read behind the numeral, moves
it.
-/

namespace Ydb

open Lib

/-- Two exponents that make the same number of the same digits, or that are both
too large or both too small for a number. -/
def SameRange (a b : Int) : Prop := a = b ∨ (48 ≤ a ∧ 48 ≤ b) ∨ (a < -42 ∧ b < -42)

/-- Neither the cut of the exponent nor an exponent behind the numeral moves the
number. -/
def Numeral.ReadRight (n : Numeral) (rest : List UInt8) : Prop :=
  n.significant = [] ∨
    ((∀ e, n.exponent = some e → SameRange (n.place + e.power) (n.place + e.cutPower)) ∧
      ∀ e, n.Stray rest e → SameRange n.place (n.place + e.cutPower))

/-- What `s2n` makes of a value. A literal that overflows at compile time is left
without a number, which its reader reports. -/
def numberOf : Except RtsError S2n → Except RtsError Mval
  | .error e => .error e
  | .ok r => if r.u.mvtype.nm then .ok r.u else .error .numoflow

/-- The numeric value, or the error. -/
def s2nNumber (tg : ThreadGbl) (u : Mval) : Except RtsError Mval := numberOf (s2n tg u)

/-! ## The number -/

/-- The eighteen digits that are kept make a decimal, whatever the exponent. -/
theorem Scan.Finds.reads {sc : Scan} {ds : List Nat} {place power : Int} {negative : Bool}
    (finds : sc.Finds ds place power negative) (bounded : ∀ d ∈ ds, d < 10)
    (head : ∃ first rest, ds = first :: rest ∧ first ≠ 0) (exp : Int) :
    ∃ (d : Decimal) (n : Nat), d.neg = negative ∧ d.exp = exp ∧
      ds.take 18 = d.significant ++ List.replicate n 0 ∧
      (exp = place + power → sc.Reads d n (ds.take 18)) := by
  obtain ⟨first, rest, rfl, nonzero⟩ := head
  have strip : stripZeros ((first :: rest).take 18) = first :: stripZeros (rest.take 17) :=
    stripZeros_cons_of_ne first _ nonzero
  have kept := bounded_take bounded 18
  obtain ⟨d, neg, dExp, significant⟩ := Decimal.exists_of_significant negative exp
    (stripZeros ((first :: rest).take 18))
    (fun e member => kept e (stripZeros_subset _ e member))
    ((stripZeros_length_le _).trans (by simp))
    ⟨first, _, strip, nonzero⟩ (by
      rcases stripZeros_last ((first :: rest).take 18) with none | ⟨front, last, other, same⟩
      · rw [strip] at none
        cases none
      · exact ⟨front, last, same, other⟩)
  obtain ⟨n, padded⟩ := stripZeros_restore ((first :: rest).take 18)
  rw [← significant] at padded
  refine ⟨d, n, neg, dExp, padded, ?_⟩
  intro right
  have upper : ((first :: rest).take 18).take 9 = (first :: rest).take 9 := by
    rw [List.take_take]
    rfl
  have lower : (((first :: rest).take 18).drop 9).take 9 = ((first :: rest).drop 9).take 9 := by
    rw [List.drop_take, List.take_take]
    rfl
  constructor
  · exact padded
  · rw [upper, finds.m1]
  · rw [upper, finds.low]
  · rw [upper, finds.room]
  · rw [← (d.words n _ padded).2, lower, finds.m0]
  · exact finds.digit
  · rw [dExp, right]
    exact finds.exponent (by simp)
  · rw [neg]
    exact finds.sign

theorem Decimal.mant_of_padded (d : Decimal) {ds : List Nat} {n : Nat}
    (padded : ds = d.significant ++ List.replicate n 0) (short : ds.length ≤ 18) :
    d.mant = evalFrom 10 0 ds * 10 ^ (18 - ds.length) := by
  have size := congrArg List.length padded
  rw [List.length_append, List.length_replicate] at size
  rw [d.mant_eq, padded, evalFrom_append, evalFrom_replicate_zero, Nat.mul_assoc, ← Nat.pow_add,
    ← padded]
  congr 2
  omega

/-- Digits lie between their first eighteen and the next number of eighteen digits. -/
theorem Decimal.bounds_of_padded (d : Decimal) {ds : List Nat} {n : Nat}
    (bounded : ∀ e ∈ ds, e < 10) (padded : ds.take 18 = d.significant ++ List.replicate n 0) :
    d.mant * (10 : ℚ) ^ (d.exp - 18) ≤ evalFrom 10 0 ds * (10 : ℚ) ^ (d.exp - ds.length) ∧
      evalFrom 10 0 ds * (10 : ℚ) ^ (d.exp - ds.length) < (d.mant + 1) * (10 : ℚ) ^ (d.exp - 18) := by
  have mant := d.mant_of_padded padded (by simp)
  have unit : ∀ k : ℤ, (0 : ℚ) < (10 : ℚ) ^ k := fun k => zpow_pos (by norm_num) _
  rcases Nat.lt_or_ge 18 ds.length with long | short
  · obtain ⟨k, size⟩ : ∃ k : ℕ, ds.length = 18 + k := ⟨ds.length - 18, by omega⟩
    have kept : d.mant = evalFrom 10 0 (ds.take 18) := by
      rw [mant]
      simp [Nat.min_eq_left long.le]
    have split : evalFrom 10 0 ds = d.mant * 10 ^ k + evalFrom 10 0 (ds.drop 18) := by
      conv_lhs => rw [← List.take_append_drop 18 ds, evalFrom_append, evalFrom_acc]
      rw [kept, List.length_drop, size, Nat.add_sub_cancel_left]
    have rest : evalFrom 10 0 (ds.drop 18) < 10 ^ k := by
      have small := evalFrom_lt 10 _ (bounded_drop bounded 18)
      rwa [List.length_drop, size, Nat.add_sub_cancel_left] at small
    have scale : (10 : ℚ) ^ (d.exp - 18) = 10 ^ k * (10 : ℚ) ^ (d.exp - ds.length) := by
      rw [← zpow_natCast, ← zpow_add₀ (by norm_num), size]
      congr 1
      push_cast
      ring
    have splitQ : (evalFrom 10 0 ds : ℚ) = d.mant * 10 ^ k + evalFrom 10 0 (ds.drop 18) := by
      exact_mod_cast split
    have restQ : (evalFrom 10 0 (ds.drop 18) : ℚ) < 10 ^ k := by exact_mod_cast rest
    rw [scale, ← mul_assoc, ← mul_assoc, splitQ]
    constructor
    · apply mul_le_mul_of_nonneg_right _ (unit _).le
      exact le_add_of_nonneg_right (Nat.cast_nonneg _)
    · apply mul_lt_mul_of_pos_right _ (unit _)
      rw [add_mul, one_mul]
      exact add_lt_add_of_le_of_lt le_rfl restQ
  · rw [List.take_of_length_le short] at mant
    have scale : (10 : ℚ) ^ (d.exp - ds.length) = 10 ^ (18 - ds.length) * (10 : ℚ) ^ (d.exp - 18) := by
      rw [← zpow_natCast, ← zpow_add₀ (by norm_num)]
      congr 1
      omega
    have same : evalFrom 10 0 ds * (10 : ℚ) ^ (d.exp - ds.length) =
        d.mant * (10 : ℚ) ^ (d.exp - 18) := by
      rw [scale, ← mul_assoc, mant]
      push_cast
      ring
    rw [same]
    refine ⟨le_rfl, ?_⟩
    rw [add_mul, one_mul]
    exact lt_add_of_pos_right _ (unit _)

/-- A decimal keeps the first eighteen of the digits. -/
theorem Decimal.truncates (d : Decimal) {ds : List Nat} {n : Nat} (bounded : ∀ e ∈ ds, e < 10)
    (padded : ds.take 18 = d.significant ++ List.replicate n 0) :
    truncateTo 10 18 (signFactor d.neg *
      (evalFrom 10 0 ds * (10 : ℚ) ^ (d.exp - ds.length))) = d.value := by
  obtain ⟨lo, hi⟩ := d.bounds_of_padded bounded padded
  have wide : 10 ^ 18 ≤ 10 * d.mant := by
    have leading := d.lo
    omega
  have magnitude := truncateTo_of_bounds (by decide) wide d.hi lo hi
  rw [Nat.cast_ofNat] at magnitude
  cases sign : d.neg with
  | false => rw [Decimal.value, sign, signFactor, one_mul, one_mul, magnitude]
  | true => rw [Decimal.value, sign, signFactor, neg_one_mul, neg_one_mul, truncateTo_neg, magnitude]

/-- The number that is delivered for the digits that a scan reads. -/
theorem convert_delivers (tg : ThreadGbl) {u : Mval} {sc : Scan} {d : Decimal} {n : Nat}
    {ds : List Nat} (isString : u.IsString) (reads : sc.Reads d n ds) :
    Delivers d.value (numberOf (convert tg u sc)) := by
  have exponents : exponent 10 d.value + MV_XBIAS = d.exp + MV_XBIAS := by rw [d.exponent_value]
  have width : (ds.take 9).length ≤ 9 := by simp
  have low := lowZeros_add_stripped (ds.take 9)
  have lowEq := reads.low
  have roomEq := reads.room
  obtain ⟨upper, _⟩ := d.words n ds reads.padded
  rw [← reads.m1, ← reads.room] at upper
  have m1 : sc.m1 * ten_pwr sc.k = d.mant / 10 ^ 9 := by
    rw [ten_pwr_eq _ (by omega), upper]
  have lo := d.lo
  have nonzero : sc.m1 * ten_pwr sc.k ≠ 0 := by
    rw [m1]
    omega
  constructor
  · intro large
    rw [exponents] at large
    simp only [EXPHI, MV_XBIAS] at large
    have notInt : ¬ (sc.m0 = 0 ∧ d.exp ≤ 6 ∧ 0 ≤ (sc.i : Int) + (d.exp + sc.k - 6)) := by omega
    have notLow : ¬ (d.exp + (MV_XBIAS : ℤ) < (EXPLO : ℤ) ∨ sc.m1 * ten_pwr sc.k = 0) := by
      simp only [MV_XBIAS, EXPLO]
      omega
    have high : (EXPHI : ℤ) ≤ d.exp + (MV_XBIAS : ℤ) := by
      simp only [MV_XBIAS, EXPHI]
      omega
    simp only [convert, reads.digit, reads.exponent, Bool.true_eq_false, if_false, if_neg notInt,
      if_neg notLow, if_pos high]
    split <;> rfl
  · rintro (zero | small)
    · exact absurd zero d.value_ne_zero
    · rw [exponents] at small
      have below : d.exp < -42 := by
        simp only [EXPLO, MV_XBIAS] at small
        omega
      have notInt : ¬ (sc.m0 = 0 ∧ d.exp ≤ 6 ∧ 0 ≤ (sc.i : Int) + (d.exp + sc.k - 6)) := by omega
      simp only [convert, reads.digit, reads.exponent, Bool.true_eq_false, if_false, if_neg notInt,
        if_pos (Or.inl small : _ ∨ sc.m1 * ten_pwr sc.k = 0)]
      exact ⟨_, rfl, ⟨rfl, rfl, by simp [MANT_HI]⟩, rfl⟩
  · intro _ above below
    rw [exponents] at above below
    simp only [EXPLO, EXPHI, MV_XBIAS] at above below
    obtain ⟨r, converted, canonical, value, _⟩ :=
      convert_decimal tg isString reads ⟨by omega, by omega⟩
    have isNumber : r.u.mvtype.nm = true := canonical.elim (·.nm) (·.1.nm)
    refine ⟨r.u, ?_, canonical, value⟩
    rw [converted, numberOf, if_pos isNumber]

/-- Without a significant digit the number is zero. -/
theorem convert_zero (tg : ThreadGbl) {u : Mval} {sc : Scan} {place power : Int} {negative : Bool}
    (finds : sc.Finds [] place power negative) : Delivers 0 (numberOf (convert tg u sc)) := by
  have m1 : sc.m1 = 0 := finds.m1
  rw [convert]
  simp only [finds.digit, Bool.true_eq_false, if_false]
  generalize sc.x + (if sc.dot = true then sc.y else (sc.z : Int)) = x
  by_cases isInt : sc.m0 = 0 ∧ x ≤ 6 ∧ 0 ≤ (sc.i : Int) + (x + sc.k - 6)
  · rw [if_pos isInt]
    apply Delivers.of_zero rfl
    · refine ⟨rfl, rfl, ?_⟩
      simp [m1, MANT_HI]
    · simp [m1]
  · rw [if_neg isInt, if_pos (.inr (by rw [m1, Nat.zero_mul]))]
    apply Delivers.of_zero rfl
    · exact ⟨rfl, rfl, by simp [MANT_HI]⟩
    · rfl

/-- Of two decimals with the same digits, one delivers what the other does exactly
when their exponents are in the same range. -/
theorem Delivers.sameRange_iff {c d : Decimal} {outcome : Except RtsError Mval} (neg : c.neg = d.neg)
    (mant : c.mant = d.mant) (delivers : Delivers d.value outcome) :
    Delivers c.value outcome ↔ SameRange c.exp d.exp := by
  have exponents : ∀ a : Decimal, exponent 10 a.value + MV_XBIAS = a.exp + MV_XBIAS := by
    intro a
    rw [a.exponent_value]
  have high : ∀ a : Decimal, (EXPHI : Int) ≤ exponent 10 a.value + MV_XBIAS ↔ 48 ≤ a.exp := by
    intro a
    rw [exponents]
    simp only [EXPHI, MV_XBIAS]
    omega
  have low : ∀ a : Decimal, exponent 10 a.value + MV_XBIAS < EXPLO ↔ a.exp < -42 := by
    intro a
    rw [exponents]
    simp only [EXPLO, MV_XBIAS]
    omega
  constructor
  · intro other
    have overflows := other.overflow_iff.symm.trans delivers.overflow_iff
    have vanishes := other.zero_iff.symm.trans delivers.zero_iff
    rw [high, high] at overflows
    simp only [c.value_ne_zero, d.value_ne_zero, false_or] at vanishes
    rw [low, low] at vanishes
    by_cases large : 48 ≤ c.exp
    · exact .inr (.inl ⟨large, overflows.mp large⟩)
    by_cases small : c.exp < -42
    · exact .inr (.inr ⟨small, vanishes.mp small⟩)
    obtain ⟨v, returned, _, value⟩ := other.number c.value_ne_zero
      (not_lt.mp (mt (low c).mp small)) (not_le.mp (mt (high c).mp large))
    obtain ⟨w, returned', _, value'⟩ := delivers.number d.value_ne_zero
      (not_lt.mp (mt (low d).mp (mt vanishes.mpr small)))
      (not_le.mp (mt (high d).mp (mt overflows.mpr large)))
    obtain rfl := Except.ok.inj (returned.symm.trans returned')
    left
    exact congrArg Decimal.exp (Decimal.value_injective (value.symm.trans value'))
  · rintro (same | ⟨large, large'⟩ | ⟨small, small'⟩)
    · rwa [Decimal.ext neg same mant]
    · constructor
      · intro _
        exact delivers.overflow ((high d).mpr large')
      · rintro (zero | small)
        · exact absurd zero c.value_ne_zero
        · rw [low] at small
          omega
      · intro _ _ below
        have above := (high c).mpr large
        omega
    · constructor
      · intro above
        rw [high] at above
        omega
      · intro _
        exact delivers.vanished (.inr ((low d).mpr small'))
      · intro _ above _
        have below := (low c).mpr small
        omega

/-! ## What the exponent does to the number -/

/-- An exponent at the start of a text can be read to the end of its digits. -/
theorem exists_whole_exponent {T : List UInt8} {e : ExponentText} (begins : e.text <+: T) :
    ∃ (e' : ExponentText) (more : List UInt8), T = e'.text ++ more ∧ NoDigit more := by
  obtain ⟨after, rfl⟩ := begins
  obtain ⟨ds, more, rfl, bounded, stops⟩ := exists_digit_run after
  have nonempty : e.digits ++ ds ≠ [] := by simp [e.nonempty]
  refine ⟨⟨e.sign, e.digits ++ ds, bounded_append e.bounded bounded, nonempty⟩, more, ?_, stops⟩
  simp [ExponentText.text]

theorem readPower_text (e : ExponentText) (more : List UInt8) (stops : NoDigit more) :
    readPower (e.text ++ more) = e.cutPower := by
  rw [readPower, if_pos (by simp [ExponentText.text])]
  exact exponentPart_text e more stops

theorem readPower_none {T : List UInt8} (none : ∀ e : ExponentText, ¬ e.text <+: T) :
    readPower T = 0 := by
  rw [readPower]
  split
  next starts => exact exponentPart_none none starts
  next => rfl

theorem not_isExcess_E : decide (Numeral.IsExcess Ascii.upperE) = false := by decide

/-- An exponent that is reached over digits and points is what they leave. -/
theorem dropWhile_reached {passed : List UInt8} (more : List UInt8) (e : ExponentText)
    (excess : ∀ c ∈ passed, Numeral.IsExcess c) :
    (passed ++ (e.text ++ more)).dropWhile (fun c => decide (Numeral.IsExcess c)) =
      e.text ++ more := by
  rw [List.dropWhile_append_of_pos (by simpa using excess), ExponentText.text, List.cons_append,
    List.dropWhile_cons, not_isExcess_E]
  rfl

/-- The exponent that is read leaves the number in range exactly when the numeral
is read right. -/
theorem Numeral.sameRange_readPower (n : Numeral) {rest : List UInt8} (ends : n.Ends rest) :
    SameRange (n.place + n.power)
        (n.place + readPower (n.reached (exponentText n.exponent ++ rest))) ↔
      (∀ e, n.exponent = some e → SameRange (n.place + e.power) (n.place + e.cutPower)) ∧
        ∀ e, n.Stray rest e → SameRange n.place (n.place + e.cutPower) := by
  cases exponent : n.exponent with
  | some e =>
    have reached : n.reached (e.text ++ rest) = e.text ++ rest := by
      have kept := dropWhile_reached rest e (fun _ (none : _ ∈ []) => absurd none List.not_mem_nil)
      rw [Numeral.reached]
      split
      · exact kept
      · rfl
    have power : n.power = e.power := by rw [Numeral.power, exponent]; rfl
    rw [exponentText, reached, readPower_text e rest ends.digit, power]
    constructor
    · intro same
      refine ⟨?_, fun e' stray => ?_⟩
      · rintro e' rfl'
        cases rfl'
        exact same
      · have bare := stray.bare
        rw [exponent] at bare
        cases bare
    · intro right
      exact right.1 e rfl
  | none =>
    have power : n.power = 0 := by rw [Numeral.power, exponent]; rfl
    rw [exponentText, List.nil_append, power, add_zero]
    have vacuous : ∀ e : ExponentText, (none : Option ExponentText) = some e →
        SameRange (n.place + e.power) (n.place + e.cutPower) := by
      intro e impossible
      cases impossible
    by_cases begins : ∃ e : ExponentText, e.text <+: n.reached rest
    · obtain ⟨e, begins⟩ := begins
      obtain ⟨e, more, reached, stops⟩ := exists_whole_exponent begins
      have beyond : 18 ≤ n.place ∧ n.fraction ≠ none := by
        by_contra near
        rw [Numeral.reached, if_neg near] at reached
        exact ends.exponent exponent e ⟨more, reached.symm⟩
      rw [reached, readPower_text e more stops]
      rw [Numeral.reached, if_pos beyond] at reached
      have stray : n.Stray rest e := by
        refine ⟨beyond.1, beyond.2, exponent,
          rest.takeWhile (fun c => decide (IsExcess c)), more, ?_, ?_, stops⟩
        · rw [← reached, List.takeWhile_append_dropWhile]
        · intro c member
          exact of_decide_eq_true (List.all_eq_true.mp List.all_takeWhile c member)
      constructor
      · intro same
        refine ⟨vacuous, fun e' stray' => ?_⟩
        obtain ⟨passed, more', split, excess, stops'⟩ := stray'.reached
        rw [split, dropWhile_reached _ _ excess] at reached
        have agree := congrArg readPower reached
        rw [readPower_text _ _ stops, readPower_text _ _ stops'] at agree
        rwa [agree]
      · intro right
        exact right.2 e stray
    · rw [readPower_none (fun e starts => begins ⟨e, starts⟩), add_zero]
      refine ⟨fun _ => ⟨vacuous, fun e stray => ?_⟩, fun _ => .inl rfl⟩
      obtain ⟨passed, more, split, excess, _⟩ := stray.reached
      refine absurd ⟨e, more, ?_⟩ begins
      rw [Numeral.reached, if_pos ⟨stray.long, stray.point⟩, split, dropWhile_reached _ _ excess]

/-! ## Strings without a numeral -/

theorem exists_sign_run (text : List UInt8) : ∃ (signs : List Bool) (body : List UInt8),
    text = signs.map signByte ++ body ∧
      (body.head? ≠ some Ascii.minus ∧ body.head? ≠ some Ascii.plus) := by
  induction text with
  | nil => exact ⟨[], [], rfl, by simp⟩
  | cons c text ih =>
    obtain ⟨signs, body, same, stops⟩ := ih
    by_cases minus : c = Ascii.minus
    · exact ⟨true :: signs, body, by rw [minus, same]; rfl, stops⟩
    by_cases plus : c = Ascii.plus
    · exact ⟨false :: signs, body, by rw [plus, same]; rfl, stops⟩
    · exact ⟨[], c :: text, rfl, by simpa using ⟨minus, plus⟩⟩

/-- A scan that meets no digit in the mantissa. -/
theorem scanMantissa_nothing (dot : Bool) {T : List UInt8} (stops : NoDigit T)
    (noPoint : dot = true ∨ T.head? ≠ some Ascii.dot) :
    ∃ r, scanMantissa 0 dot T = r ∧ r.y = 0 ∧ r.z = 0 ∧ scanExcess r.dot r.dot r.z r.rest = (0, T) := by
  obtain ⟨r, scanned⟩ : ∃ r, scanMantissa 0 dot T = r := ⟨_, rfl⟩
  obtain ⟨_, y, dot', more, leaves, count⟩ :=
    scanMantissa_run 0 dot [] (by simp) T stops (noPoint.imp_right .inl) r scanned
  have text := leaves.text
  rw [leaves.nothing 0 rfl, List.map_nil, List.nil_append] at text
  have zero : r.z = 0 := by
    rw [List.length_nil] at count
    omega
  refine ⟨r, scanned, y, zero, ?_⟩
  rw [text, dot', zero, scanExcess_stop _ _ _ _ stops noPoint]

theorem scan_nothing {text : List UInt8} (none : ∀ n : Numeral, ¬ n.text <+: text) :
    (scan text).digit = false := by
  obtain ⟨signs, body, rfl, notSign⟩ := exists_sign_run text
  have stops : NoDigit body := by
    intro c after same
    by_contra isNot
    have digit : isDigit c = true := by simpa using isNot
    have small := digitVal_lt c digit
    refine none ⟨signs, [digitVal c], Option.none, Option.none, by simpa using small, by simp⟩
      ⟨after, ?_⟩
    simp [Numeral.text, Numeral.fractionText, Numeral.exponentText, same,
      digitByte_digitVal c digit]
  obtain ⟨sign, scanned, _⟩ := scanSigns_run 0 signs body notSign
  have zeros := scanZeros_run 0 0 body (head_ne_zero stops)
  rw [List.replicate_zero, List.nil_append, Nat.zero_add] at zeros
  have result : ∃ dot T, scanPoint body = (dot, 0, T) ∧ NoDigit T ∧
      (dot = true ∨ T.head? ≠ some Ascii.dot) := by
    cases body with
    | nil => exact ⟨false, [], rfl, noDigit_nil, .inr (by simp)⟩
    | cons c after =>
      by_cases point : c = Ascii.dot
      · have behind : NoDigit after := by
          intro c' more same
          by_contra isNot
          have digit : isDigit c' = true := by simpa using isNot
          have small := digitVal_lt c' digit
          refine none ⟨signs, [], some [digitVal c'], Option.none, by simpa using small, by simp⟩
            ⟨more, ?_⟩
          simp [Numeral.text, Numeral.fractionText, Numeral.exponentText, same, point,
            digitByte_digitVal c' digit]
        have noZeros := scanZeros_run 0 0 after (head_ne_zero behind)
        rw [List.replicate_zero, List.nil_append] at noZeros
        exact ⟨true, after, by simp [scanPoint, point, noZeros], behind, .inl rfl⟩
      · exact ⟨false, c :: after, by simp [scanPoint, point, zeros], stops,
          .inr (by simpa using point)⟩
  obtain ⟨dot, T, point, behind, noPoint⟩ := result
  obtain ⟨r, mantissa, y, z, excess⟩ := scanMantissa_nothing dot behind noPoint
  simp only [scan, scanned, zeros, point, mantissa, excess, y]
  simp

/-! ## Strings as numbers -/

theorem Numeral.text_ne_nil (n : Numeral) : n.text ≠ [] := by
  intro empty
  have nonempty := n.nonempty
  simp only [Numeral.text, List.append_eq_nil_iff, List.map_eq_nil_iff] at empty
  cases fraction : n.fraction with
  | none => simp [fraction, empty.2.1] at nonempty
  | some F => simp [fraction, Numeral.fractionText] at empty

theorem Numeral.significant_head (n : Numeral) (some : n.significant ≠ []) :
    ∃ first rest, n.significant = first :: rest ∧ first ≠ 0 := by
  cases digits : n.significant with
  | nil => exact absurd digits some
  | cons first rest =>
    refine ⟨first, rest, rfl, ?_⟩
    obtain ⟨k, more, same, noZero⟩ := exists_leading_zeros n.mantissa
    rw [Numeral.significant, same, (dropWhile_zeros k more noZero).1] at digits
    rw [digits] at noZero
    simpa using noZero

theorem Numeral.significant_lt (n : Numeral) : ∀ d ∈ n.significant, d < 10 := fun d member =>
  n.bounded d (List.dropWhile_subset _ member)

theorem Numeral.value_eq (n : Numeral) :
    n.value = signFactor n.negative * (evalFrom 10 0 n.significant *
      (10 : ℚ) ^ (n.place + n.power - n.significant.length)) := by
  obtain ⟨k, more, same, noZero⟩ := exists_leading_zeros n.mantissa
  obtain ⟨digits, zeros⟩ := dropWhile_zeros k more noZero
  have size := congrArg List.length same
  rw [Numeral.mantissa, List.length_append, List.length_append, List.length_replicate] at size
  rw [Numeral.value, Numeral.significant, Numeral.place, same, digits, zeros, evalFrom_append,
    evalFrom_replicate_zero, Nat.zero_mul]
  congr 3
  omega

theorem s2nNumber_nothing (tg : ThreadGbl) {u : Mval} (isString : u.IsString)
    (none : ∀ n : Numeral, ¬ n.text <+: u.str) : Delivers 0 (s2nNumber tg u) := by
  by_cases empty : u.str = []
  · have converted : s2n tg u = .ok ⟨literalNull, [], { tg with s2n_intlit := true }⟩ := by
      simp [s2n, isString.mvtype, empty]
    rw [s2nNumber, converted]
    exact Delivers.of_zero rfl ⟨rfl, rfl, by simp [literalNull, MANT_HI]⟩ rfl
  · rw [s2nNumber, s2n_eq_convert tg isString empty, convert]
    simp only [scan_nothing none, if_true]
    exact Delivers.of_zero rfl ⟨rfl, rfl, by simp [MANT_HI]⟩ rfl

theorem Numeral.Longest.delivers_iff (tg : ThreadGbl) {u : Mval} (isString : u.IsString)
    {n : Numeral} (longest : n.Longest u.str) :
    Delivers (truncateTo 10 18 n.value) (s2nNumber tg u) ↔
      n.ReadRight (u.str.drop n.text.length) := by
  obtain ⟨rest, split⟩ := longest.1
  have behind : u.str.drop n.text.length = rest := by rw [← split, List.drop_left]
  have some : u.str ≠ [] := by
    rw [← split]
    intro empty
    exact n.text_ne_nil (List.append_eq_nil_iff.mp empty).1
  rw [behind, s2nNumber, s2n_eq_convert tg isString some]
  have finds := longest.scan split.symm
  by_cases zero : n.significant = []
  · have value : n.value = 0 := by
      rw [n.value_eq, zero]
      simp [evalFrom]
    rw [zero] at finds
    rw [value, truncateTo_zero]
    exact iff_of_true (convert_zero tg finds) (.inl zero)
  · -- the decimals of the numeral and of what is read differ in the exponent alone
    have head := n.significant_head zero
    obtain ⟨c, k, cNeg, cExp, cPadded, _⟩ := finds.reads n.significant_lt head (n.place + n.power)
    obtain ⟨d, k', dNeg, dExp, dPadded, reads⟩ := finds.reads n.significant_lt head
      (n.place + readPower (n.reached (exponentText n.exponent ++ rest)))
    have mant : c.mant = d.mant := by
      rw [c.mant_of_padded cPadded (by simp), d.mant_of_padded dPadded (by simp)]
    have value : truncateTo 10 18 n.value = c.value := by
      rw [n.value_eq, ← cNeg, ← cExp]
      exact c.truncates n.significant_lt cPadded
    rw [value, Delivers.sameRange_iff (cNeg.trans dNeg.symm) mant
      (convert_delivers tg isString (reads rfl)), cExp, dExp,
      n.sameRange_readPower (longest.ends split.symm), Numeral.ReadRight]
    simp [zero]

/-- Used as a number, a string is some number. -/
theorem s2nNumber_delivers (tg : ThreadGbl) {u : Mval} (isString : u.IsString) :
    ∃ r, Delivers r (s2nNumber tg u) := by
  by_cases some : ∃ n : Numeral, n.text <+: u.str
  · obtain ⟨n, longest⟩ := Numeral.exists_longest some
    obtain ⟨rest, split⟩ := longest.1
    have finds := longest.scan split.symm
    have nonempty : u.str ≠ [] := by
      rw [← split]
      intro empty
      exact n.text_ne_nil (List.append_eq_nil_iff.mp empty).1
    rw [s2nNumber, s2n_eq_convert tg isString nonempty]
    by_cases zero : n.significant = []
    · rw [zero] at finds
      exact ⟨0, convert_zero tg finds⟩
    · obtain ⟨d, k, _, _, _, reads⟩ := finds.reads n.significant_lt (n.significant_head zero)
        (n.place + readPower (n.reached (Numeral.exponentText n.exponent ++ rest)))
      exact ⟨d.value, convert_delivers tg isString (reads rfl)⟩
  · exact ⟨0, s2nNumber_nothing tg isString (not_exists.mp some)⟩

/-- Used as a number, a string stands for the longest numeral that it starts with,
cut to eighteen digits, exactly when that numeral is read right; and for zero when
it starts with none. -/
theorem string_is_its_longest_numeral (tg : ThreadGbl) {u : Mval} (isString : u.IsString) :
    ((∀ n : Numeral, ¬ n.text <+: u.str) ∨ ∃ n : Numeral, n.Longest u.str) ∧
      ((∀ n : Numeral, ¬ n.text <+: u.str) → Delivers 0 (s2nNumber tg u)) ∧
      ∀ n : Numeral, n.Longest u.str →
        (Delivers (truncateTo 10 18 n.value) (s2nNumber tg u) ↔
          n.ReadRight (u.str.drop n.text.length)) := by
  refine ⟨?_, s2nNumber_nothing tg isString, fun n longest => longest.delivers_iff tg isString⟩
  by_cases some : ∃ n : Numeral, n.text <+: u.str
  · exact .inr (Numeral.exists_longest some)
  · exact .inl (not_exists.mp some)

/-- A string, as a value. -/
def stringValue (text : List UInt8) : Mval := ⟨⟨false, false, true, false, false⟩, false, 0, 0, 0, text⟩

/-- `12.5E1` -/
def twelveAndAHalf : Numeral where
  signs := []
  whole := [1, 2]
  fraction := some [5]
  exponent := some ⟨none, [1], by decide, by decide⟩
  bounded := by decide
  nonempty := by decide

/-- The string `"12.5E1.9"` is the number 125. -/
theorem string_is_its_longest_numeral_at_12_5E1 :
    Delivers (truncateTo 10 18 twelveAndAHalf.value)
      (s2nNumber ⟨false, false⟩ (stringValue (twelveAndAHalf.text ++ [Ascii.dot, Ascii.nine]))) := by
  have ends : twelveAndAHalf.Ends [Ascii.dot, Ascii.nine] :=
    ⟨noDigit_dot _, (fun impossible => nomatch impossible), (fun impossible => nomatch impossible)⟩
  apply ((string_is_its_longest_numeral ⟨false, false⟩
    (u := stringValue (twelveAndAHalf.text ++ [Ascii.dot, Ascii.nine])) ⟨rfl⟩).2.2
      twelveAndAHalf ends.longest).mpr
  right
  refine ⟨?_, fun e stray => by cases stray.bare⟩
  rintro e same
  obtain rfl := Option.some.inj same
  exact .inl (by decide)

/-- `1234567890123456789.5` -/
def nineteenDigits : Numeral where
  signs := []
  whole := [1, 2, 3, 4, 5, 6, 7, 8, 9, 0, 1, 2, 3, 4, 5, 6, 7, 8, 9]
  fraction := some [5]
  exponent := none
  bounded := by decide
  nonempty := by decide

/-- `E3` -/
def thousandfold : ExponentText := ⟨none, [3], by decide, by decide⟩

/-- Behind nineteen digits and a point, `.7E3` multiplies the number by a thousand. -/
theorem stray_exponent_changes_the_number :
    nineteenDigits.Longest (nineteenDigits.text ++ (Ascii.dot :: digitByte 7 :: thousandfold.text)) ∧
      ¬ Delivers (truncateTo 10 18 nineteenDigits.value) (s2nNumber ⟨false, false⟩
        (stringValue (nineteenDigits.text ++ (Ascii.dot :: digitByte 7 :: thousandfold.text)))) := by
  have ends : nineteenDigits.Ends (Ascii.dot :: digitByte 7 :: thousandfold.text) := by
    refine ⟨noDigit_dot _, (fun _ impossible => nomatch impossible), ?_⟩
    intro _ e begins
    have impossible := (List.cons_prefix_cons.mp begins).1
    cases impossible
  refine ⟨ends.longest, ?_⟩
  rw [Numeral.Longest.delivers_iff ⟨false, false⟩
    (u := stringValue (nineteenDigits.text ++ (Ascii.dot :: digitByte 7 :: thousandfold.text)))
    ⟨rfl⟩ ends.longest]
  rintro (zero | ⟨_, right⟩)
  · exact absurd zero (by decide)
  · have stray : nineteenDigits.Stray ((nineteenDigits.text ++
        (Ascii.dot :: digitByte 7 :: thousandfold.text)).drop nineteenDigits.text.length)
        thousandfold := by
      rw [List.drop_left]
      refine ⟨by decide, by decide, rfl, [Ascii.dot, digitByte 7], [], by simp, ?_, noDigit_nil⟩
      intro c member
      simp only [List.mem_cons, List.not_mem_nil, or_false] at member
      rcases member with rfl | rfl
      · exact .inl rfl
      · exact .inr rfl
    have same := right thousandfold stray
    have place : nineteenDigits.place = 19 := by decide
    have power : thousandfold.cutPower = 3 := by decide
    rw [place, power, SameRange] at same
    omega

end Ydb
