import Ydb.NumericForms

/-!
# Printing a number

`n2s` gives a number its string. An `MV_INT` value is printed from its integer
and fractional parts, right to left. A float is printed left to right, nine
digits at a time, and stops once the point has been passed and no digits remain.
Both loops produce the text of the decimal that the value denotes.
-/

namespace Ydb

open Lib

/-! ## The routine -/

/-- The loop that passes over the trailing zeros of the fraction. `left` counts
the iterations that remain, the current one included; the result is that count,
the digit that stopped the loop and the digits above it. -/
def dropFractionZeros : Nat → Nat → Nat × Nat × Nat
  | 0, m1 => (0, 0, m1)
  | left + 1, m1 =>
    let tmp := m1 - m1 / 10 * 10
    if tmp ≠ 0 then (left + 1, tmp, m1 / 10) else dropFractionZeros left (m1 / 10)

/-- Writes `count` digits of `m` in front of `cp1`, low digit first. -/
def digitsBefore : Nat → Nat → List UInt8 → List UInt8
  | 0, _, cp1 => cp1
  | count + 1, m, cp1 => digitsBefore count (m / 10) (digitByte (m - m / 10 * 10) :: cp1)

/-- Writes the digits of a positive `m` in front of `cp1` until none is left.
The local buffer holds `MAX_DIGITS_IN_INT` of them. -/
def wholeBefore : Nat → Nat → List UInt8 → List UInt8
  | 0, _, cp1 => cp1
  | room + 1, m, cp1 =>
    if 0 < m then wholeBefore room (m / 10) (digitByte (m - m / 10 * 10) :: cp1) else cp1

/-- The text of a positive number of thousandths. -/
def n2sThousandths (m : Nat) : List UInt8 :=
  let m0 := m / MV_BIAS
  let m1 := m - m0 * MV_BIAS
  let cp1 :=
    if m1 > 0 then
      let (left, tmp, above) := dropFractionZeros MV_BIAS_PWR m1
      Ascii.dot :: digitsBefore (left - 1) above [digitByte tmp]
    else []
  wholeBefore MAX_DIGITS_IN_INT m0 cp1

/-- The inner loop over one packed word: the exponent it leaves behind and the
characters it writes. `m0` is the word that follows. -/
def packedDigits : Nat → Int → Nat → Nat → Int × List UInt8
  | 0, exp, _, _ => (exp, [])
  | n + 1, exp, m1, m0 =>
    let tmp := m1 / MANT_LO
    let next := packedDigits n (exp - 1) ((m1 - tmp * MANT_LO) * 10) m0
    if exp = 0 then
      if m0 = 0 ∧ m1 = 0 then (exp - 1, [])
      else (next.1, Ascii.dot :: digitByte tmp :: next.2)
    else if exp - 1 < 0 ∧ m0 = 0 ∧ m1 = 0 then (exp - 1, [])
    else (next.1, digitByte tmp :: next.2)

/-- The outer loop. The second word is followed by zero, so a third turn never
starts. -/
def packedWords (exp : Int) (m1 m0 : Nat) : Int × List UInt8 :=
  if m1 = 0 then (exp, [])
  else
    let first := packedDigits NUM_DEC_DG_1L exp m1 m0
    if m0 = 0 then first
    else
      let second := packedDigits NUM_DEC_DG_1L first.1 m0 0
      (second.1, first.2 ++ second.2)

/-- The text of a float. -/
def n2sFloat (sgn : Bool) (e m1 m0 : Nat) : List UInt8 :=
  let exp : Int := e - MV_XBIAS
  let body := packedWords exp m1 m0
  (if sgn then [Ascii.minus] else []) ++
    ((if exp < 0 then Ascii.dot :: List.replicate (-exp).toNat Ascii.zero else []) ++
      (body.2 ++ List.replicate body.1.toNat Ascii.zero))

/-- The characters `n2s` writes. -/
def n2sText (v : Mval) : List UInt8 :=
  if v.m1 = 0 then [Ascii.zero]
  else if v.mvtype.int then
    (if v.m1 < 0 then [Ascii.minus] else []) ++ n2sThousandths v.m1.natAbs
  else n2sFloat v.sgn v.e v.m1.toNat v.m0.toNat

/-- Gives the value its string; the number stays as it is. -/
def n2s (v : Mval) : Mval :=
  let mvtype := v.mvtype
  { v with mvtype := { mvtype with str := true, numApprox := false }, str := n2sText v }

/-! ## Digits written from the right -/

theorem digitsBefore_eq (count m : Nat) (cp1 : List UInt8) :
    digitsBefore count m cp1 = (digits 10 count m).map digitByte ++ cp1 := by
  induction count generalizing m cp1 with
  | zero => rfl
  | succ count ih =>
    have low : m - m / 10 * 10 = m % 10 := by omega
    rw [digitsBefore, ih, digits_snoc, low, List.map_append]
    simp

/-- The whole part is written with its own number of digits. -/
theorem wholeBefore_eq (room n m : Nat) (cp1 : List UInt8) (fits : n ≤ room)
    (lo : 10 ^ n ≤ 10 * m ∨ n = 0) (hi : m < 10 ^ n) :
    wholeBefore room m cp1 = (digits 10 n m).map digitByte ++ cp1 := by
  induction n generalizing room m cp1 with
  | zero =>
    have none : m = 0 := by simpa using hi
    cases room <;> simp [wholeBefore, none, digits]
  | succ n ih =>
    obtain ⟨room, rfl⟩ : ∃ k, room = k + 1 := ⟨room - 1, by omega⟩
    have positive : 0 < m := by
      omega
    have low : m - m / 10 * 10 = m % 10 := by omega
    rw [Nat.pow_succ] at lo hi
    have above : 10 ^ n ≤ 10 * (m / 10) ∨ n = 0 := by
      by_cases last : n = 0
      · exact .inr last
      · obtain ⟨k, rfl⟩ := Nat.exists_eq_succ_of_ne_zero last
        rw [Nat.pow_succ] at lo ⊢
        omega
    rw [wholeBefore, if_pos positive, ih room (m / 10) _ (by omega) above
      (by omega), digits_snoc, low, List.map_append]
    simp

/-! ## Layout of digits around the point -/

namespace Decimal

theorem layout_append_of_le (exp : Int) (left right : List Nat) (before : left.length ≤ exp) :
    layout exp (left ++ right) = left.map digitByte ++ layout (exp - left.length) right := by
  induction left generalizing exp with
  | nil => simp
  | cons d rest ih =>
    rw [List.length_cons] at before
    rw [List.cons_append, layout, if_neg (by omega), ih _ (by omega)]
    simp only [List.map_cons, List.cons_append, List.length_cons]
    congr 3
    push_cast
    ring

theorem layout_neg (exp : Int) (ds : List Nat) (passed : exp < 0) :
    layout exp ds = ds.map digitByte := by
  induction ds generalizing exp with
  | nil => simp [layout, Int.toNat_of_nonpos (le_of_lt passed)]
  | cons d rest ih =>
    rw [layout, if_neg (by omega), ih _ (by omega), List.map_cons]

theorem layout_zero (ds : List Nat) (some : ds ≠ []) :
    layout 0 ds = Ascii.dot :: ds.map digitByte := by
  cases ds with
  | nil => exact absurd rfl some
  | cons d rest => rw [layout, if_pos rfl, layout_neg _ _ (by omega), List.map_cons]

/-- Zeros beyond the last significant digit are the filling of an integer. -/
theorem layout_stripZeros (exp : Int) (ds : List Nat) (within : ds.length ≤ exp) :
    layout exp (stripZeros ds) = layout exp ds := by
  obtain ⟨n, same⟩ := stripZeros_restore ds
  have total := congrArg List.length same
  rw [List.length_append, List.length_replicate] at total
  have plain : layout exp (stripZeros ds) =
      (stripZeros ds).map digitByte ++ layout (exp - (stripZeros ds).length) [] := by
    rw [← layout_append_of_le _ _ _ (by omega), List.append_nil]
  have padded : layout exp ds = (stripZeros ds).map digitByte ++
      ((List.replicate n 0).map digitByte ++ layout (exp - (stripZeros ds).length - n) []) := by
    conv_lhs => rw [same]
    rw [layout_append_of_le _ _ _ (by omega)]
    congr 1
    rw [← List.append_nil (List.replicate n 0), layout_append_of_le _ _ _ (by simp; omega)]
    simp
  rw [plain, padded]
  congr 1
  have zero : digitByte 0 = Ascii.zero := rfl
  rw [List.map_replicate, zero, layout, layout, List.replicate_append_replicate]
  congr 1
  omega

end Decimal

/-! ## Thousandths -/

/-- The fraction loop leaves the significant digits of the fraction. -/
theorem dropFractionZeros_eq (left m : Nat) (positive : 0 < m) (small : m < 10 ^ left) :
    ∃ n tmp above, dropFractionZeros left m = (n + 1, tmp, above) ∧ n < left ∧
      digits 10 n above ++ [tmp] = stripZeros (digits 10 left m) := by
  induction left generalizing m with
  | zero => simp at small; omega
  | succ left ih =>
    have low : m - m / 10 * 10 = m % 10 := by omega
    by_cases zero : m % 10 = 0
    · rw [Nat.pow_succ] at small
      obtain ⟨n, tmp, above, same, shorter, kept⟩ :=
        ih (m / 10) (by omega) (by omega)
      refine ⟨n, tmp, above, ?_, by omega, ?_⟩
      · rw [dropFractionZeros, low, if_neg (by simp [zero]), same]
      · rw [kept, digits_snoc, zero, stripZeros_concat_zero]
    · refine ⟨left, m % 10, m / 10, ?_, by omega, ?_⟩
      · rw [dropFractionZeros, low, if_pos zero]
      · rw [digits_snoc, stripZeros_concat _ _ zero]

/-- The digits of a number split between its whole and fractional parts. -/
theorem digits_thousandths (n m : Nat) (wide : 3 ≤ n) :
    digits 10 n m = digits 10 (n - 3) (m / 1000) ++ digits 10 3 (m - m / 1000 * 1000) := by
  have low : m - m / 1000 * 1000 = m % 10 ^ 3 := by omega
  conv_lhs => rw [show n = n - 3 + 3 by omega]
  rw [digits_add, low, digits_mod _ _ _ _ le_rfl]
  rfl

/-- A positive number of thousandths prints as its decimal without the sign. -/
theorem n2sThousandths_eq (m n : Nat) (narrow : n ≤ 9) (some : 1 ≤ n)
    (lo : 10 ^ (n - 1) ≤ m) (hi : m < 10 ^ n) :
    n2sThousandths m = Decimal.opening (n - 3) ++
      Decimal.layout (n - 3) (stripZeros (digits 10 n m)) := by
  have fractionSmall : m - m / 1000 * 1000 < 10 ^ 3 := by omega
  -- What stands after the whole part: nothing, or the point and the fraction's digits.
  have tail : n2sThousandths m = wholeBefore 10 (m / 1000)
      (if m - m / 1000 * 1000 = 0 then []
       else Ascii.dot :: (stripZeros (digits 10 3 (m - m / 1000 * 1000))).map digitByte) := by
    change wholeBefore 10 (m / 1000) (if 0 < m - m / 1000 * 1000 then
      Ascii.dot :: digitsBefore ((dropFractionZeros 3 (m - m / 1000 * 1000)).1 - 1)
        (dropFractionZeros 3 (m - m / 1000 * 1000)).2.2
        [digitByte (dropFractionZeros 3 (m - m / 1000 * 1000)).2.1] else []) = _
    by_cases none : m - m / 1000 * 1000 = 0
    · rw [if_pos none, if_neg (by omega)]
    · have positive : 0 < m - m / 1000 * 1000 := Nat.pos_of_ne_zero none
      obtain ⟨k, tmp, above, same, _, kept⟩ :=
        dropFractionZeros_eq 3 (m - m / 1000 * 1000) positive fractionSmall
      rw [if_pos positive, if_neg none, same, ← kept, List.map_append, digitsBefore_eq]
      rfl
  rw [tail]
  rcases Nat.lt_or_ge 3 n with wide | short
  · have split : 10 ^ n = 10 ^ (n - 3) * 1000 := by
      rw [show (1000 : Nat) = 10 ^ 3 by norm_num, ← Nat.pow_add]
      congr 1
      omega
    have lower : 10 ^ (n - 1) * 10 = 10 ^ n := by
      rw [← Nat.pow_succ]
      congr 1
      omega
    have tens : 10 ^ (n - 3) = 10 ^ (n - 4) * 10 := by
      rw [← Nat.pow_succ]
      congr 1
      omega
    have noOpening : Decimal.opening (n - 3) = [] := by
      rw [Decimal.opening, if_neg (by omega)]
    rw [wholeBefore_eq 10 (n - 3) (m / 1000) _ (by omega) (.inl (by omega)) (by omega),
      digits_thousandths n m (by omega), noOpening, List.nil_append]
    by_cases none : m - m / 1000 * 1000 = 0
    · have zeros : digits 10 3 (m - m / 1000 * 1000) = List.replicate 3 0 := by
        rw [none]
        rfl
      rw [if_pos none, zeros, stripZeros_append_replicate, Decimal.layout_stripZeros _ _
        (by rw [digits_length]; omega), ← List.append_nil (digits 10 (n - 3) (m / 1000)),
        Decimal.layout_append_of_le _ _ _ (by rw [digits_length]; omega), digits_length]
      simp [Decimal.layout, show ((n : ℤ) - 3 - (n - 3 : ℕ)) = 0 by omega]
    · have kept := stripZeros_digits_ne_nil 10 3 (m - m / 1000 * 1000) (by omega) fractionSmall
      rw [if_neg none, stripZeros_append _ _ kept,
        Decimal.layout_append_of_le _ _ _ (by rw [digits_length]; omega), digits_length,
        show ((n : ℤ) - 3 - (n - 3 : ℕ)) = 0 by omega, Decimal.layout_zero _ kept]
  · have bound : 10 ^ n ≤ 10 ^ 3 := Nat.pow_le_pow_right (by decide) short
    have power : 0 < 10 ^ (n - 1) := Nat.pow_pos (by decide)
    have whole : m / 1000 = 0 := by omega
    have kept := stripZeros_digits_ne_nil 10 n m (by omega) hi
    have spread : digits 10 3 m = List.replicate (3 - n) 0 ++ digits 10 n m := by
      conv_lhs => rw [show 3 = 3 - n + n by omega]
      exact digits_leading_zeros 10 (3 - n) n m hi
    have positive : m - 0 * 1000 ≠ 0 := by omega
    rw [whole, if_neg positive, wholeBefore_eq 10 0 0 _ (by omega) (.inr rfl) (by simp),
      show m - 0 * 1000 = m by omega, spread, stripZeros_append _ _ kept]
    simp only [digits, List.map_nil, List.nil_append, List.map_append, List.map_replicate]
    rcases Nat.lt_or_eq_of_le short with below | exact3
    · rw [Decimal.opening, if_pos (by omega), Decimal.layout_neg _ _ (by omega),
        show (-((n : ℤ) - 3)).toNat = 3 - n by omega]
      rfl
    · subst exact3
      simp [Decimal.opening, Decimal.layout_zero _ kept]

/-- A nonzero `MV_INT` value prints as its decimal. -/
theorem n2sText_int {v : Mval} (isInt : v.IsInt) (nonzero : v.m1 ≠ 0) (d : Decimal)
    (same : d.value = v.value) : n2sText v = d.text := by
  obtain ⟨n, narrow, some, lo, hi, value⟩ := isInt.decimal nonzero
  have decimals := Decimal.value_injective (same.trans value.symm)
  have stripped : stripZeros (digits 10 18 (v.m1.natAbs * 10 ^ (18 - n))) =
      stripZeros (digits 10 n v.m1.natAbs) := by
    conv_lhs => rw [show 18 = n + (18 - n) by omega]
    rw [show n + (18 - n) - n = 18 - n by omega, digits_shift _ _ _ _ (by decide),
      stripZeros_append_replicate]
  rw [n2sText, if_neg nonzero, isInt.int, if_pos rfl, n2sThousandths_eq _ n narrow some lo hi,
    decimals, Decimal.text, Decimal.significant]
  simp only [Decimal.ofThousandths, stripped, Decimal.signText, decide_eq_true_eq]

/-! ## Floats -/

/-- Only a zero word followed by a zero word leaves no digits. -/
theorem stripZeros_words_eq_nil (n x m0 : Nat) (small : x < 10 ^ n) (next : m0 < 10 ^ 9) :
    stripZeros (digits 10 n x ++ digits 10 9 m0) = [] ↔ x = 0 ∧ m0 = 0 := by
  by_cases second : m0 = 0
  · rw [second, show digits 10 9 0 = List.replicate 9 0 from rfl, stripZeros_append_replicate]
    by_cases first : x = 0
    · subst first
      have zeros : digits 10 n 0 = List.replicate n 0 := by
        simpa [digits] using digits_leading_zeros 10 n 0 0 (by simp)
      simp [zeros]
    · simp [first, stripZeros_digits_ne_nil 10 n x (by omega) small]
  · have kept := stripZeros_digits_ne_nil 10 9 m0 (by omega) next
    simp [stripZeros_append _ _ kept, kept, second]

/-- One packed word of `n` remaining digits, and the word after it, are laid out
from the current exponent on. The loop stops early only where nothing but zeros
remains beyond the point. -/
theorem packedDigits_layout (n : Nat) (exp : Int) (x m0 : Nat) (narrow : n ≤ 9)
    (small : x < 10 ^ n) (next : m0 < 10 ^ 9) :
    (packedDigits n exp (x * 10 ^ (9 - n)) m0).2 ++
        Decimal.layout (packedDigits n exp (x * 10 ^ (9 - n)) m0).1
          (stripZeros (digits 10 9 m0)) =
      Decimal.layout exp (stripZeros (digits 10 n x ++ digits 10 9 m0)) := by
  induction n generalizing exp x with
  | zero => rfl
  | succ n ih =>
    have power : 0 < 10 ^ n := Nat.pow_pos (by decide)
    have scale : MANT_LO = 10 ^ (9 - (n + 1)) * 10 ^ n := by
      rw [← Nat.pow_add, show 9 - (n + 1) + n = 8 by omega]
      rfl
    have wider : 10 ^ (9 - n) = 10 ^ (9 - (n + 1)) * 10 := by
      rw [← Nat.pow_succ]
      congr 1
      omega
    have digit : x * 10 ^ (9 - (n + 1)) / MANT_LO = x / 10 ^ n := by
      rw [scale, Nat.mul_comm x, Nat.mul_div_mul_left _ _ (Nat.pow_pos (by decide))]
    have rest : (x * 10 ^ (9 - (n + 1)) - x / 10 ^ n * MANT_LO) * 10 =
        x % 10 ^ n * 10 ^ (9 - n) := by
      have split : x * 10 ^ (9 - (n + 1)) =
          x / 10 ^ n * MANT_LO + x % 10 ^ n * 10 ^ (9 - (n + 1)) := by
        conv_lhs => rw [← Nat.div_add_mod x (10 ^ n)]
        rw [scale]
        ring
      rw [split, Nat.add_sub_cancel_left, wider]
      ring
    have leading : x / 10 ^ n < 10 := by
      rw [Nat.pow_succ] at small
      exact Nat.div_lt_of_lt_mul (by omega)
    have vanish : x * 10 ^ (9 - (n + 1)) = 0 ↔ x = 0 := by simp
    have tail := ih (exp - 1) (x % 10 ^ n) (by omega) (Nat.mod_lt _ power)
    rw [digits_mod 10 n x n le_rfl] at tail
    have exhausted := stripZeros_words_eq_nil (n + 1) x m0 small next
    have whole : stripZeros (digits 10 (n + 1) x ++ digits 10 9 m0) =
        if stripZeros (digits 10 n x ++ digits 10 9 m0) = [] ∧ x / 10 ^ n = 0 then []
        else x / 10 ^ n :: stripZeros (digits 10 n x ++ digits 10 9 m0) := by
      rw [digits, Nat.mod_eq_of_lt leading, List.cons_append, stripZeros_cons]
    have noDigits : stripZeros (digits 10 9 0) = [] := rfl
    rw [packedDigits]
    simp only [digit, rest, vanish]
    by_cases none : m0 = 0 ∧ x = 0
    · rw [exhausted.mpr ⟨none.2, none.1⟩]
      by_cases passed : exp ≤ 0
      · have stop : (if exp = 0 then
            if m0 = 0 ∧ x = 0 then (exp - 1, [])
            else ((packedDigits n (exp - 1) (x % 10 ^ n * 10 ^ (9 - n)) m0).1,
              Ascii.dot :: digitByte (x / 10 ^ n) ::
                (packedDigits n (exp - 1) (x % 10 ^ n * 10 ^ (9 - n)) m0).2)
          else if exp - 1 < 0 ∧ m0 = 0 ∧ x = 0 then (exp - 1, ([] : List UInt8))
          else ((packedDigits n (exp - 1) (x % 10 ^ n * 10 ^ (9 - n)) m0).1,
              digitByte (x / 10 ^ n) ::
                (packedDigits n (exp - 1) (x % 10 ^ n * 10 ^ (9 - n)) m0).2)) =
            (exp - 1, []) := by
          by_cases atPoint : exp = 0
          · rw [if_pos atPoint, if_pos none]
          · rw [if_neg atPoint, if_pos ⟨by omega, none⟩]
        rw [stop, none.1, noDigits]
        simp [Decimal.layout, Int.toNat_of_nonpos passed]
      · rw [if_neg (by omega), if_neg (by omega), List.cons_append, tail, none.1, none.2]
        have empty : stripZeros (digits 10 n 0 ++ digits 10 9 0) = [] :=
          (stripZeros_words_eq_nil n 0 0 (by simp) (by simp)).mpr ⟨rfl, rfl⟩
        rw [empty, Nat.zero_div, Decimal.layout, Decimal.layout,
          show exp.toNat = (exp - 1).toNat + 1 by omega, List.replicate_succ]
        rfl
    · have some : ¬ (stripZeros (digits 10 n x ++ digits 10 9 m0) = [] ∧ x / 10 ^ n = 0) := by
        intro vacant
        rw [if_pos vacant] at whole
        exact none ⟨(exhausted.mp whole).2, (exhausted.mp whole).1⟩
      rw [whole, if_neg some, Decimal.layout]
      by_cases atPoint : exp = 0
      · rw [if_pos atPoint, if_neg none, if_pos atPoint, List.cons_append, List.cons_append, tail]
      · rw [if_neg atPoint, if_neg (by tauto), if_neg atPoint, List.cons_append, tail]

/-- The two packed words are laid out as one sequence of eighteen digits. -/
theorem packedWords_layout (exp : Int) (m1 m0 : Nat) (positive : 0 < m1) (small : m1 < 10 ^ 9)
    (next : m0 < 10 ^ 9) :
    (packedWords exp m1 m0).2 ++ List.replicate (packedWords exp m1 m0).1.toNat Ascii.zero =
      Decimal.layout exp (stripZeros (digits 10 18 (m1 * 10 ^ 9 + m0))) := by
  have joined : digits 10 18 (m1 * 10 ^ 9 + m0) = digits 10 9 m1 ++ digits 10 9 m0 :=
    digits_join 10 9 9 m1 m0 next
  have first := packedDigits_layout 9 exp m1 m0 le_rfl small next
  rw [Nat.sub_self, Nat.pow_zero, Nat.mul_one] at first
  rw [joined, ← first, packedWords, if_neg (by omega), NUM_DEC_DG_1L]
  by_cases none : m0 = 0
  · rw [if_pos none, none, show stripZeros (digits 10 9 0) = [] from rfl, Decimal.layout]
  · have second := packedDigits_layout 9 (packedDigits 9 exp m1 m0).1 m0 0 le_rfl next (by simp)
    rw [Nat.sub_self, Nat.pow_zero, Nat.mul_one, show digits 10 9 0 = List.replicate 9 0 from rfl,
      stripZeros_append_replicate, stripZeros_replicate, Decimal.layout] at second
    rw [if_neg none, ← second, List.append_assoc]

/-- A float prints as its decimal. -/
theorem n2sText_float {v : Mval} (isFloat : v.IsFloat) (d : Decimal)
    (same : d.value = v.value) : n2sText v = d.text := by
  have decimals : d = isFloat.toDecimal :=
    Decimal.value_injective (same.trans isFloat.toDecimal_value.symm)
  have bounds := isFloat.bounds
  rw [n2sText, if_neg (by omega), isFloat.int, if_neg (by decide), n2sFloat, MV_XBIAS,
    packedWords_layout _ _ _ (by omega) (by omega) (by omega), decimals]
  rfl

/-- The value zero prints as the digit zero. -/
theorem n2sText_zero {v : Mval} (zero : v.m1 = 0) : n2sText v = [Ascii.zero] := by
  rw [n2sText, if_pos zero]

/-- Either numeric form prints as the decimal it denotes. -/
theorem n2sText_eq {v : Mval} (valid : v.IsInt ∨ v.IsFloat) (d : Decimal)
    (same : d.value = v.value) : n2sText v = d.text := by
  rcases valid with isInt | isFloat
  · by_cases zero : v.m1 = 0
    · exact absurd (same.trans (isInt.value_eq_zero.mpr zero)) d.value_ne_zero
    · exact n2sText_int isInt zero d same
  · exact n2sText_float isFloat d same

end Ydb
