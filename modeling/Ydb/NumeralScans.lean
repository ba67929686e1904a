import Ydb.StringScanning

/-!
# Scanning digit runs

What the loops of `s2n` do on runs of digits, on the three shapes a canonical
text can have, and on the choice between the two numeric forms. The text of a
decimal in the exponent range is converted to the one canonical value that
denotes it.
-/

namespace Ydb

open Lib

/-! ## Digit runs -/

/-- The text starts with no digit. -/
def NoDigit (text : List UInt8) : Prop := ∀ c rest, text = c :: rest → isDigit c = false

theorem noDigit_nil : NoDigit [] := fun _ _ impossible => by cases impossible

theorem noDigit_dot (rest : List UInt8) : NoDigit (Ascii.dot :: rest) := by
  intro c after same
  cases same
  rfl

/-- Every text is a run of digits and a remainder that starts with none. -/
theorem exists_digit_run (text : List UInt8) : ∃ (ds : List Nat) (rest : List UInt8),
    text = ds.map digitByte ++ rest ∧ (∀ d ∈ ds, d < 10) ∧ NoDigit rest := by
  induction text with
  | nil => exact ⟨[], [], rfl, by simp, noDigit_nil⟩
  | cons c text ih =>
    by_cases digit : isDigit c = true
    · obtain ⟨ds, rest, same, bounded, stops⟩ := ih
      refine ⟨digitVal c :: ds, rest, ?_, ?_, stops⟩
      · rw [List.map_cons, digitByte_digitVal c digit, same, List.cons_append]
      · intro d member
        rcases List.mem_cons.mp member with rfl | later
        · exact digitVal_lt c digit
        · exact bounded d later
    · refine ⟨[], c :: text, rfl, by simp, ?_⟩
      intro first rest same
      cases same
      simpa using digit

/-- The number of zeros at the low end of the digits read so far. -/
def lowZeros (i : Nat) : List Nat → Nat
  | [] => i
  | d :: rest => lowZeros (if d = 0 then i + 1 else 0) rest

theorem lowZeros_append (i : Nat) (left right : List Nat) :
    lowZeros i (left ++ right) = lowZeros (lowZeros i left) right := by
  induction left generalizing i with
  | nil => rfl
  | cons d rest ih => exact ih _

/-- The low zeros are the digits that `stripZeros` removes. -/
theorem lowZeros_add_stripped (ds : List Nat) :
    lowZeros 0 ds + (stripZeros ds).length = ds.length := by
  induction ds using List.reverseRecOn with
  | nil => rfl
  | append_singleton rest d ih =>
    rw [lowZeros_append, lowZeros, lowZeros]
    by_cases none : d = 0
    · subst none
      rw [if_pos rfl, stripZeros_concat_zero, List.length_append, List.length_singleton]
      omega
    · rw [if_neg none, stripZeros_concat rest d none, Nat.zero_add]

/-- The low zeros are a power of ten that divides the word. -/
theorem evalFrom_eq_stripped (ds : List Nat) :
    evalFrom 10 0 ds = evalFrom 10 0 (stripZeros ds) * 10 ^ lowZeros 0 ds := by
  obtain ⟨n, same⟩ := stripZeros_restore ds
  have total := congrArg List.length same
  rw [List.length_append, List.length_replicate] at total
  have count := lowZeros_add_stripped ds
  have width : n = lowZeros 0 ds := by omega
  conv_lhs => rw [same, evalFrom_append, evalFrom_replicate_zero, width]

/-! ## The loops on digit runs -/

theorem packDigits_run (m i z room : Nat) (ds : List Nat) (rest : List UInt8)
    (bounded : ∀ d ∈ ds, d < 10) (fits : ds.length ≤ room) :
    packDigits m i z room (ds.map digitByte ++ rest) =
      packDigits (evalFrom 10 m ds) (lowZeros i ds) (z + ds.length) (room - ds.length) rest := by
  induction ds generalizing m i z room with
  | nil => rfl
  | cons d ds ih =>
    have small : d < 10 := bounded d List.mem_cons_self
    have later : ∀ e ∈ ds, e < 10 := fun e member => bounded e (List.mem_cons_of_mem d member)
    rw [List.length_cons] at fits
    rw [List.map_cons, List.cons_append, packDigits, if_pos ⟨by omega, isDigit_digitByte d small⟩]
    simp only [digitByte_eq_zero d small, digitVal_digitByte d small, List.length_cons]
    rw [evalFrom, lowZeros, show z + (ds.length + 1) = z + 1 + ds.length by omega,
      show room - (ds.length + 1) = room - 1 - ds.length by omega]
    by_cases none : d = 0
    · rw [if_pos none, if_pos none, none, ih _ _ _ _ later (by omega)]
      rfl
    · rw [if_neg none, if_neg none, ih _ _ _ _ later (by omega)]

theorem packDigits_stop (m i z room : Nat) (rest : List UInt8)
    (stops : room = 0 ∨ NoDigit rest) :
    packDigits m i z room rest = ⟨m, i, z, room, rest⟩ := by
  cases rest with
  | nil => rfl
  | cons c rest =>
    rw [packDigits, if_neg]
    rintro ⟨room, digit⟩
    rcases stops with full | noDigit
    · omega
    · rw [noDigit c rest rfl] at digit
      cases digit

theorem iscanDigits_run (step : Int) (zeroes sigdigs : Nat) (exp : Int) (ds : List Nat)
    (rest : List UInt8) (bounded : ∀ d ∈ ds, d < 10) (stops : NoDigit rest) :
    iscanDigits step zeroes sigdigs exp (ds.map digitByte ++ rest) =
      (lowZeros zeroes ds, sigdigs + ds.length, exp + step * ds.length, rest) := by
  induction ds generalizing zeroes sigdigs exp with
  | nil =>
    cases rest with
    | nil => simp [iscanDigits, lowZeros]
    | cons c rest => simp [iscanDigits, lowZeros, stops c rest rfl]
  | cons d ds ih =>
    have small : d < 10 := bounded d List.mem_cons_self
    rw [List.map_cons, List.cons_append, iscanDigits, if_pos (isDigit_digitByte d small),
      ih _ _ _ (fun e member => bounded e (List.mem_cons_of_mem d member))]
    simp only [digitByte_eq_zero d small, lowZeros, List.length_cons]
    refine Prod.ext rfl (Prod.ext (by simp only; omega) (Prod.ext ?_ rfl))
    simp only
    push_cast
    ring

/-- The zeros at the start of a text are counted and passed. -/
theorem scanZeros_run (count n : Nat) (rest : List UInt8)
    (stops : rest.head? ≠ some Ascii.zero) :
    scanZeros count (List.replicate n Ascii.zero ++ rest) = (count + n, rest) := by
  induction n generalizing count with
  | zero =>
    cases rest with
    | nil => rfl
    | cons c rest =>
      rw [List.head?_cons] at stops
      rw [List.replicate_zero, List.nil_append, scanZeros, if_neg (fun same => stops (by rw [same])),
        Nat.add_zero]
  | succ n ih =>
    rw [List.replicate_succ, List.cons_append, scanZeros, if_pos rfl, ih]
    congr 1
    omega

theorem exists_zero_run (text : List UInt8) : ∃ n rest,
    text = List.replicate n Ascii.zero ++ rest ∧ rest.head? ≠ some Ascii.zero := by
  induction text with
  | nil => exact ⟨0, [], rfl, by simp⟩
  | cons c text ih =>
    by_cases none : c = Ascii.zero
    · obtain ⟨n, rest, same, stops⟩ := ih
      exact ⟨n + 1, rest, by rw [none, same, List.replicate_succ, List.cons_append], stops⟩
    · exact ⟨0, c :: text, rfl, by simpa using none⟩

/-! ## The three shapes of a canonical text -/

namespace Decimal

/-- A run of digits is the text of an integer. -/
theorem exists_text_whole (neg : Bool) (whole : List Nat) (bounded : ∀ d ∈ whole, d < 10)
    (head : ∃ first rest, whole = first :: rest ∧ first ≠ 0)
    (short : (stripZeros whole).length ≤ 18) :
    ∃ d : Decimal, d.exp = whole.length ∧ d.significant = stripZeros whole ∧ d.neg = neg ∧
      d.text = signText neg ++ whole.map digitByte := by
  have kept : ∃ first rest, stripZeros whole = first :: rest ∧ first ≠ 0 := by
    obtain ⟨first, rest, rfl, nonzero⟩ := head
    exact ⟨first, stripZeros rest, stripZeros_cons_of_ne first rest nonzero, nonzero⟩
  have last : ∃ before final, stripZeros whole = before ++ [final] ∧ final ≠ 0 := by
    rcases stripZeros_last whole with vacant | ⟨before, final, nonzero, same⟩
    · obtain ⟨first, rest, same, _⟩ := kept
      rw [vacant] at same
      cases same
    · exact ⟨before, final, same, nonzero⟩
  obtain ⟨d, sign, exp, digits⟩ := exists_of_significant neg whole.length (stripZeros whole)
    (fun d member => bounded d (stripZeros_subset whole d member)) short kept last
  refine ⟨d, exp, digits, sign, ?_⟩
  have laid : layout whole.length whole = whole.map digitByte := by
    have split := layout_append_of_le whole.length whole [] le_rfl
    simpa [layout] using split
  rw [text, sign, exp, digits, layout_stripZeros _ _ le_rfl, laid, opening, if_neg (by omega),
    List.nil_append]

/-- Digits around a point are the text of a number above one. -/
theorem exists_text_point (neg : Bool) (whole fraction : List Nat)
    (wholeBounded : ∀ d ∈ whole, d < 10) (fractionBounded : ∀ d ∈ fraction, d < 10)
    (head : ∃ first rest, whole = first :: rest ∧ first ≠ 0)
    (last : ∃ before final, fraction = before ++ [final] ∧ final ≠ 0)
    (short : whole.length + fraction.length ≤ 18) :
    ∃ d : Decimal, d.exp = whole.length ∧ d.significant = whole ++ fraction ∧ d.neg = neg ∧
      d.text = signText neg ++ (whole.map digitByte ++ Ascii.dot :: fraction.map digitByte) := by
  have some : fraction ≠ [] := by
    obtain ⟨before, final, rfl, _⟩ := last
    simp
  obtain ⟨d, sign, exp, digits⟩ := exists_of_significant neg whole.length (whole ++ fraction)
    (fun d member => (List.mem_append.mp member).elim (wholeBounded d) (fractionBounded d))
    (by rw [List.length_append]; exact short)
    (by obtain ⟨first, rest, rfl, nonzero⟩ := head; exact ⟨first, rest ++ fraction, rfl, nonzero⟩)
    (by
      obtain ⟨before, final, rfl, nonzero⟩ := last
      exact ⟨whole ++ before, final, by rw [List.append_assoc], nonzero⟩)
  refine ⟨d, exp, digits, sign, ?_⟩
  rw [text, sign, exp, digits, layout_append_of_le _ _ _ le_rfl, Int.sub_self, layout_zero _ some,
    opening, if_neg (by omega), List.nil_append]

/-- A point, zeros and digits are the text of a number below one. -/
theorem exists_text_fraction (neg : Bool) (n : Nat) (fraction : List Nat)
    (bounded : ∀ d ∈ fraction, d < 10)
    (head : ∃ first rest, fraction = first :: rest ∧ first ≠ 0)
    (last : ∃ before final, fraction = before ++ [final] ∧ final ≠ 0)
    (short : fraction.length ≤ 18) :
    ∃ d : Decimal, d.exp = -n ∧ d.significant = fraction ∧ d.neg = neg ∧
      d.text = signText neg ++
        (Ascii.dot :: (List.replicate n Ascii.zero ++ fraction.map digitByte)) := by
  have some : fraction ≠ [] := by
    obtain ⟨first, rest, rfl, _⟩ := head
    simp
  obtain ⟨d, sign, exp, digits⟩ := exists_of_significant neg (-n) fraction bounded short head last
  refine ⟨d, exp, digits, sign, ?_⟩
  rw [text, sign, exp, digits, opening]
  by_cases none : n = 0
  · subst none
    simp [layout_zero _ some]
  · rw [if_pos (by omega), layout_neg _ _ (by omega), Int.neg_neg, Int.toNat_natCast]
    rfl

/-- Every text has one of the three shapes. -/
theorem text_shapes (d : Decimal) :
    (∃ n : Nat, d.exp = n ∧ d.significant.length ≤ n ∧ d.text = signText d.neg ++
        (d.significant ++ List.replicate (n - d.significant.length) 0).map digitByte) ∨
      (∃ whole fraction, d.exp = whole.length ∧ d.significant = whole ++ fraction ∧ whole ≠ [] ∧
        fraction ≠ [] ∧ d.text = signText d.neg ++
          (whole.map digitByte ++ Ascii.dot :: fraction.map digitByte)) ∨
      (∃ n : Nat, d.exp = -n ∧ d.text = signText d.neg ++
        (Ascii.dot :: (List.replicate n Ascii.zero ++ d.significant.map digitByte))) := by
  have some := d.significant_ne_nil
  rcases lt_or_ge 0 d.exp with above | below
  · have noOpening : opening d.exp = [] := by rw [opening, if_neg (by omega)]
    obtain ⟨n, exp⟩ := Int.eq_ofNat_of_zero_le (le_of_lt above)
    by_cases integer : d.significant.length ≤ n
    · refine .inl ⟨n, exp, integer, ?_⟩
      have laid := layout_append_of_le d.exp d.significant [] (by omega)
      rw [List.append_nil] at laid
      rw [text, noOpening, laid, layout, exp, List.map_append, List.map_replicate,
        show ((n : ℤ) - d.significant.length).toNat = n - d.significant.length by omega]
      rfl
    · refine .inr (.inl ⟨d.significant.take n, d.significant.drop n, ?_, ?_, ?_, ?_, ?_⟩)
      · rw [List.length_take]
        omega
      · rw [List.take_append_drop]
      · simp only [ne_eq, List.take_eq_nil_iff, some, or_false]
        omega
      · simp only [ne_eq, List.drop_eq_nil_iff]
        omega
      · have width : (d.significant.take n).length = n := by rw [List.length_take]; omega
        have laid := layout_append_of_le d.exp (d.significant.take n) (d.significant.drop n)
          (by omega)
        rw [List.take_append_drop, width, exp, Int.sub_self, layout_zero _ (by
          simp only [ne_eq, List.drop_eq_nil_iff]; omega), ← exp] at laid
        rw [text, noOpening, laid, List.nil_append]
  · obtain ⟨n, exp⟩ := Int.eq_ofNat_of_zero_le (Int.neg_nonneg_of_nonpos below)
    refine .inr (.inr ⟨n, by omega, ?_⟩)
    rw [text, opening]
    by_cases none : d.exp = 0
    · have zero : n = 0 := by omega
      rw [if_neg (by omega), none, layout_zero _ some, zero]
      rfl
    · rw [if_pos (by omega), layout_neg _ _ (by omega), exp, Int.toNat_natCast]
      rfl

end Decimal

/-! ## Reading the two words -/

/-- The digits that fit are packed where the text behind them cannot be. -/
theorem packDigits_eq (m i z room : Nat) (ds : List Nat) (rest : List UInt8)
    (bounded : ∀ d ∈ ds, d < 10) (fits : ds.length ≤ room)
    (stops : ds.length = room ∨ NoDigit rest) :
    packDigits m i z room (ds.map digitByte ++ rest) =
      ⟨evalFrom 10 m ds, lowZeros i ds, z + ds.length, room - ds.length, rest⟩ := by
  rw [packDigits_run m i z room ds rest bounded fits, packDigits_stop]
  exact stops.imp_left (by omega)

theorem bounded_take {ds : List Nat} (bounded : ∀ d ∈ ds, d < 10) (n : Nat) :
    ∀ d ∈ ds.take n, d < 10 := fun d member => bounded d (List.mem_of_mem_take member)

theorem bounded_drop {ds : List Nat} (bounded : ∀ d ∈ ds, d < 10) (n : Nat) :
    ∀ d ∈ ds.drop n, d < 10 := fun d member => bounded d (List.mem_of_mem_drop member)

/-- A word without a point takes nine of the digits. -/
theorem scanWord_run (i : Nat) (y : Int) (z : Nat) (dot : Bool) (ds : List Nat)
    (rest : List UInt8) (bounded : ∀ d ∈ ds, d < 10) (stops : NoDigit rest)
    (noPoint : dot = true ∨ rest.head? ≠ some Ascii.dot ∨ 9 ≤ ds.length) :
    scanWord i y z dot (ds.map digitByte ++ rest) =
      ⟨evalFrom 10 0 (ds.take 9), lowZeros i (ds.take 9), y, z + (ds.take 9).length, dot,
        9 - (ds.take 9).length, (ds.drop 9).map digitByte ++ rest⟩ := by
  have split : ds.map digitByte ++ rest =
      (ds.take 9).map digitByte ++ ((ds.drop 9).map digitByte ++ rest) := by
    rw [← List.append_assoc, ← List.map_append, List.take_append_drop]
  have packed := packDigits_eq 0 i z 9 (ds.take 9) ((ds.drop 9).map digitByte ++ rest)
    (bounded_take bounded 9) (by simp) (by
      by_cases long : 9 ≤ ds.length
      · exact .inl (by simp [long])
      · refine .inr ?_
        rw [List.drop_of_length_le (by omega)]
        exact stops)
  rw [split]
  simp only [scanWord, NUM_DEC_DG_1L, packed]
  cases behind : (ds.drop 9).map digitByte ++ rest with
  | nil => rfl
  | cons c after =>
    dsimp only
    rw [if_neg]
    rintro ⟨room, point, notYet⟩
    rcases noPoint with seen | other | full
    · rw [seen] at notYet
      cases notYet
    · rw [List.drop_of_length_le (by simp at room; omega), List.map_nil, List.nil_append] at behind
      rw [behind, point] at other
      exact other rfl
    · simp [full] at room

/-- A word with the point among its digits. -/
theorem scanWord_point (i : Nat) (y : Int) (z : Nat) (whole fraction : List Nat)
    (rest : List UInt8) (wholeBounded : ∀ d ∈ whole, d < 10)
    (fractionBounded : ∀ d ∈ fraction, d < 10) (room : whole.length < 9) (stops : NoDigit rest) :
    scanWord i y z false (whole.map digitByte ++ Ascii.dot :: (fraction.map digitByte ++ rest)) =
      ⟨evalFrom 10 0 ((whole ++ fraction).take 9), lowZeros i ((whole ++ fraction).take 9),
        (z + whole.length : Nat), z + whole.length, true, 9 - ((whole ++ fraction).take 9).length,
        ((whole ++ fraction).drop 9).map digitByte ++ rest⟩ := by
  have taken : (whole ++ fraction).take 9 = whole ++ fraction.take (9 - whole.length) := by
    rw [List.take_append, List.take_of_length_le (by omega)]
  have dropped : (whole ++ fraction).drop 9 = fraction.drop (9 - whole.length) := by
    rw [List.drop_append, List.drop_of_length_le (by omega), List.nil_append]
  have split : fraction.map digitByte ++ rest = (fraction.take (9 - whole.length)).map digitByte ++
      ((fraction.drop (9 - whole.length)).map digitByte ++ rest) := by
    rw [← List.append_assoc, ← List.map_append, List.take_append_drop]
  have before := packDigits_eq 0 i z 9 whole (Ascii.dot :: (fraction.map digitByte ++ rest))
    wholeBounded (by omega) (.inr (noDigit_dot _))
  have behind := packDigits_eq (evalFrom 10 0 whole) (lowZeros i whole) 0 (9 - whole.length)
    (fraction.take (9 - whole.length)) ((fraction.drop (9 - whole.length)).map digitByte ++ rest)
    (bounded_take fractionBounded _) (by simp) (by
      by_cases long : 9 - whole.length ≤ fraction.length
      · exact .inl (by simp [long])
      · refine .inr ?_
        rw [List.drop_of_length_le (by omega)]
        exact stops)
  rw [← split] at behind
  have more : 0 < 9 - whole.length := by omega
  simp only [scanWord, NUM_DEC_DG_1L, before, behind, more, and_self, if_true, taken, dropped,
    evalFrom_append, lowZeros_append, List.length_append, Nat.sub_sub]

/-- The two words hold the first eighteen of the digits. -/
structure Mantissa.Holds (r : Mantissa) (ds : List Nat) : Prop where
  m1 : r.first.m = evalFrom 10 0 (ds.take 9)
  low : r.first.i = lowZeros 0 (ds.take 9)
  room : r.first.room = 9 - (ds.take 9).length
  m0 : r.m0 = evalFrom 10 0 ((ds.drop 9).take 9) * 10 ^ (9 - ((ds.drop 9).take 9).length)

/-- What is left of the digits are those beyond the eighteenth, from the first
that is not zero. -/
structure Mantissa.Leaves (r : Mantissa) (ds more : List Nat) (rest : List UInt8) : Prop where
  text : r.rest = more.map digitByte ++ rest
  noZero : more.head? ≠ some 0
  beyond : ∃ n, ds.drop 18 = List.replicate n 0 ++ more

/-- An empty text makes an empty second word, so that it may always be read. -/
theorem scanMantissa_eq (y : Int) (dot : Bool) (c : List UInt8) :
    scanMantissa y dot c =
      let first := scanWord 0 y 0 dot c
      let second := scanWord 0 first.y first.z first.dot first.rest
      let zeros := scanZeros 0 second.rest
      ⟨first, second.m * ten_pwr second.room, second.y, second.z + zeros.1, second.dot, zeros.2⟩ := by
  rw [scanMantissa]
  dsimp only
  split
  next empty =>
    rw [empty]
    simp [scanWord, packDigits, scanZeros]
  next => rfl

/-- Digits split into a run of zeros and a remainder that starts with none. -/
theorem exists_leading_zeros (ds : List Nat) : ∃ n more, ds = List.replicate n 0 ++ more ∧
    more.head? ≠ some 0 := by
  induction ds with
  | nil => exact ⟨0, [], rfl, by simp⟩
  | cons d ds ih =>
    by_cases zero : d = 0
    · obtain ⟨n, more, same, noZero⟩ := ih
      exact ⟨n + 1, more, by rw [zero, same, List.replicate_succ, List.cons_append], noZero⟩
    · exact ⟨0, d :: ds, rfl, by simpa using zero⟩

theorem scanZeros_digits (ds : List Nat) (rest : List UInt8) (bounded : ∀ d ∈ ds, d < 10)
    (stops : NoDigit rest) : ∃ n more, ds = List.replicate n 0 ++ more ∧ more.head? ≠ some 0 ∧
      scanZeros 0 (ds.map digitByte ++ rest) = (n, more.map digitByte ++ rest) := by
  obtain ⟨n, more, same, noZero⟩ := exists_leading_zeros ds
  refine ⟨n, more, same, noZero, ?_⟩
  have head : (more.map digitByte ++ rest).head? ≠ some Ascii.zero := by
    cases more with
    | nil =>
      intro zero
      obtain ⟨after, text⟩ := List.head?_eq_some_iff.mp zero
      have none := stops _ _ text
      cases none
    | cons d more =>
      have small : d < 10 := bounded d (by rw [same]; simp)
      intro zero
      have isZero : digitByte d = Ascii.zero := by simpa using zero
      exact noZero (by rw [(digitByte_eq_zero d small).mp isZero]; rfl)
  rw [same, List.map_append, List.map_replicate, digitByte_zero, List.append_assoc,
    scanZeros_run 0 n _ head, Nat.zero_add]

/-- Digits without a point that the scan could take. -/
theorem scanMantissa_run (y : Int) (dot : Bool) (ds : List Nat) (bounded : ∀ d ∈ ds, d < 10)
    (rest : List UInt8) (stops : NoDigit rest)
    (noPoint : dot = true ∨ rest.head? ≠ some Ascii.dot ∨ 18 ≤ ds.length) (r : Mantissa)
    (scanned : scanMantissa y dot (ds.map digitByte ++ rest) = r) :
    r.Holds ds ∧ r.y = y ∧ r.dot = dot ∧
      ∃ more, r.Leaves ds more rest ∧ r.z + more.length = ds.length := by
  have first := scanWord_run 0 y 0 dot ds rest bounded stops
    (noPoint.imp_right (Or.imp_right (by omega)))
  have second := scanWord_run 0 y (0 + (ds.take 9).length) dot (ds.drop 9) rest
    (bounded_drop bounded 9) stops
    (noPoint.imp_right (Or.imp_right (by rw [List.length_drop]; omega)))
  obtain ⟨n, more, same, noZero, zeros⟩ :=
    scanZeros_digits (ds.drop 18) rest (bounded_drop bounded 18) stops
  rw [List.drop_drop] at second
  simp only [scanMantissa_eq, first, second, zeros] at scanned
  subst scanned
  refine ⟨⟨rfl, rfl, rfl, ?_⟩, rfl, rfl, more, ⟨rfl, noZero, n, same⟩, ?_⟩
  · simp only
    rw [ten_pwr_eq _ (by omega)]
  · have total := congrArg List.length same
    simp only [List.length_append, List.length_replicate, List.length_drop] at total
    simp only [List.length_take, List.length_drop]
    omega

/-- Digits around a point that is met before the eighteenth digit. The point
falls inside the first word or inside the second. -/
theorem scanMantissa_point (y : Int) (whole fraction : List Nat)
    (wholeBounded : ∀ d ∈ whole, d < 10) (fractionBounded : ∀ d ∈ fraction, d < 10)
    (early : whole.length < 18) (rest : List UInt8) (stops : NoDigit rest) (r : Mantissa)
    (scanned : scanMantissa y false
      (whole.map digitByte ++ Ascii.dot :: (fraction.map digitByte ++ rest)) = r) :
    r.Holds (whole ++ fraction) ∧ r.y = whole.length ∧ r.dot = true ∧
      ∃ more, r.Leaves (whole ++ fraction) more rest := by
  have bounded : ∀ d ∈ whole ++ fraction, d < 10 := fun d member =>
    (List.mem_append.mp member).elim (wholeBounded d) (fractionBounded d)
  obtain ⟨n, more, same, noZero, zeros⟩ :=
    scanZeros_digits ((whole ++ fraction).drop 18) rest (bounded_drop bounded 18) stops
  rcases Nat.lt_or_ge whole.length 9 with inFirst | inSecond
  · -- The point is in the first word, and the fraction may reach into the second.
    have first := scanWord_point 0 y 0 whole fraction rest wholeBounded fractionBounded inFirst stops
    have second := scanWord_run 0 (0 + whole.length : Nat) (0 + whole.length) true
      ((whole ++ fraction).drop 9) rest (bounded_drop bounded 9) stops (.inl rfl)
    rw [List.drop_drop] at second
    simp only [scanMantissa_eq, first, second, zeros] at scanned
    subst scanned
    refine ⟨⟨rfl, rfl, rfl, ?_⟩, by simp, rfl, more, rfl, noZero, n, same⟩
    simp only
    rw [ten_pwr_eq _ (by omega)]
  · -- The first word is full before the point.
    have first := scanWord_run 0 y 0 false whole (Ascii.dot :: (fraction.map digitByte ++ rest))
      wholeBounded (noDigit_dot _) (.inr (.inr inSecond))
    have second := scanWord_point 0 y (0 + (whole.take 9).length) (whole.drop 9) fraction rest
      (bounded_drop wholeBounded 9) fractionBounded (by rw [List.length_drop]; omega) stops
    have taken : (whole ++ fraction).take 9 = whole.take 9 :=
      List.take_append_of_le_length inSecond
    have dropped : (whole ++ fraction).drop 9 = whole.drop 9 ++ fraction :=
      List.drop_append_of_le_length inSecond
    rw [← dropped, List.drop_drop] at second
    simp only [scanMantissa_eq, first, second, zeros] at scanned
    subst scanned
    refine ⟨⟨?_, ?_, ?_, ?_⟩, ?_, rfl, more, rfl, noZero, n, same⟩
    · rw [taken]
    · rw [taken]
    · rw [taken]
    · simp only
      rw [ten_pwr_eq _ (by omega)]
    · simp only [List.length_take, List.length_drop]
      omega

/-- No digit is left of digits of which only zeros stand beyond the eighteenth. -/
theorem Mantissa.Leaves.nothing {r : Mantissa} {ds more : List Nat} {rest : List UInt8}
    (leaves : r.Leaves ds more rest) (n : Nat) (excess : ds.drop 18 = List.replicate n 0) :
    more = [] := by
  obtain ⟨k, beyond⟩ := leaves.beyond
  cases more with
  | nil => rfl
  | cons d more =>
    have zero : d = 0 := by
      apply List.eq_of_mem_replicate
      rw [← excess, beyond]
      simp
    exact absurd (by rw [zero]; rfl) leaves.noZero

/-! ## The words of a decimal -/

/-- A word filled with zeros does not see zeros that follow the digits. -/
theorem evalFrom_word (ds : List Nat) (n : Nat) :
    evalFrom 10 0 ((ds ++ List.replicate n 0).take 9) *
        10 ^ (9 - ((ds ++ List.replicate n 0).take 9).length) =
      evalFrom 10 0 (ds.take 9) * 10 ^ (9 - (ds.take 9).length) := by
  rw [List.take_append, List.take_replicate, evalFrom_append, evalFrom_replicate_zero,
    Nat.mul_assoc, ← Nat.pow_add]
  congr 2
  simp only [List.length_append, List.length_take, List.length_replicate]
  omega

/-- A full word of digits is its value. -/
theorem evalFrom_digits_word (x : Nat) (small : x < 10 ^ 9) :
    evalFrom 10 0 ((digits 10 9 x).take 9) * 10 ^ (9 - ((digits 10 9 x).take 9).length) = x := by
  rw [List.take_of_length_le (by rw [digits_length]), digits_length, evalFrom_digits,
    Nat.mod_eq_of_lt small]
  simp

theorem Decimal.padded_lt (d : Decimal) {n : Nat} {ds : List Nat}
    (padded : ds = d.significant ++ List.replicate n 0) : ∀ e ∈ ds, e < 10 := by
  intro e member
  rw [padded] at member
  rcases List.mem_append.mp member with kept | zero
  · exact d.significant_lt e kept
  · rw [List.eq_of_mem_replicate zero]
    decide

/-- The two words read from the digits of a decimal split its mantissa. -/
theorem Decimal.words (d : Decimal) (n : Nat) (ds : List Nat)
    (padded : ds = d.significant ++ List.replicate n 0) :
    evalFrom 10 0 (ds.take 9) * 10 ^ (9 - (ds.take 9).length) = d.mant / 10 ^ 9 ∧
      evalFrom 10 0 ((ds.drop 9).take 9) * 10 ^ (9 - ((ds.drop 9).take 9).length) =
        d.mant % 10 ^ 9 := by
  have hi := d.hi
  obtain ⟨k, restored⟩ := stripZeros_restore (digits 10 18 d.mant)
  have halves : digits 10 18 d.mant =
      digits 10 9 (d.mant / 10 ^ 9) ++ digits 10 9 (d.mant % 10 ^ 9) := by
    rw [show 18 = 9 + 9 from rfl, digits_add, digits_mod 10 9 d.mant 9 le_rfl]
  constructor
  · calc evalFrom 10 0 (ds.take 9) * 10 ^ (9 - (ds.take 9).length)
        = evalFrom 10 0 ((digits 10 18 d.mant).take 9) *
            10 ^ (9 - ((digits 10 18 d.mant).take 9).length) := by
          rw [padded, evalFrom_word, restored, evalFrom_word]
          rfl
      _ = _ := by
          rw [halves, List.take_append_of_le_length (by rw [digits_length])]
          exact evalFrom_digits_word _ (by omega)
  · calc evalFrom 10 0 ((ds.drop 9).take 9) * 10 ^ (9 - ((ds.drop 9).take 9).length)
        = evalFrom 10 0 (((digits 10 18 d.mant).drop 9).take 9) *
            10 ^ (9 - (((digits 10 18 d.mant).drop 9).take 9).length) := by
          rw [padded, List.drop_append, List.drop_replicate, evalFrom_word, restored,
            List.drop_append, List.drop_replicate, evalFrom_word]
          rfl
      _ = _ := by
          rw [halves, List.drop_append_of_le_length (by rw [digits_length]),
            List.drop_of_length_le (by rw [digits_length]), List.nil_append]
          exact evalFrom_digits_word _ (Nat.mod_lt _ (by decide))

/-- A number of thousandths in `MV_INT` range leaves enough low zeros in the
first word, has an empty second word and at most six digits before the point. -/
theorem Decimal.intForm_of_representable (d : Decimal) (n : Nat) (ds : List Nat)
    (padded : ds = d.significant ++ List.replicate n 0) (m : ℤ) (small : m.natAbs < MANT_HI)
    (same : d.value = m / MV_BIAS) :
    d.mant % 10 ^ 9 = 0 ∧ d.exp ≤ 6 ∧
      0 ≤ lowZeros 0 (ds.take 9) + (d.exp + (9 - (ds.take 9).length : Nat) - 6) := by
  let v : Mval := ⟨⟨true, true, false, false, false⟩, false, 0, 0, m, []⟩
  have isInt : v.IsInt := ⟨rfl, rfl, small⟩
  have value : d.value = v.value := same
  have nonzero : v.m1 ≠ 0 := fun zero =>
    d.value_ne_zero (value.trans (isInt.value_eq_zero.mpr zero))
  obtain ⟨w, narrow, some, lo, hi, thousandths⟩ := isInt.decimal nonzero
  have decimals := Decimal.value_injective (value.trans thousandths.symm)
  have exp : d.exp = w - 3 := congrArg Decimal.exp decimals
  have mant : d.mant = v.m1.natAbs * 10 ^ (18 - w) := congrArg Decimal.mant decimals
  have shifted : v.m1.natAbs * 10 ^ (18 - w) = v.m1.natAbs * 10 ^ (9 - w) * 10 ^ 9 := by
    rw [Nat.mul_assoc, ← Nat.pow_add]
    congr 2
    omega
  have first : evalFrom 10 0 (ds.take 9) * 10 ^ (9 - (ds.take 9).length) =
      v.m1.natAbs * 10 ^ (9 - w) := by
    rw [(d.words n ds padded).1, mant, shifted, Nat.mul_div_cancel _ (by decide)]
  have wordDigits : ds.take 9 ++ List.replicate (9 - (ds.take 9).length) 0 =
      digits 10 w v.m1.natAbs ++ List.replicate (9 - w) 0 := by
    have bounded := bounded_take (d.padded_lt padded) 9
    have width : (ds.take 9).length ≤ 9 := by simp
    calc ds.take 9 ++ List.replicate (9 - (ds.take 9).length) 0
        = digits 10 ((ds.take 9).length + (9 - (ds.take 9).length))
            (evalFrom 10 0 (ds.take 9) * 10 ^ (9 - (ds.take 9).length)) := by
          rw [digits_shift _ _ _ _ (by decide), digits_evalFrom 10 _ bounded]
      _ = digits 10 (w + (9 - w)) (v.m1.natAbs * 10 ^ (9 - w)) := by
          rw [first]
          congr 1
          omega
      _ = _ := digits_shift _ _ _ _ (by decide)
  have stripped : (stripZeros (ds.take 9)).length ≤ w := by
    have kept := congrArg (fun l => (stripZeros l).length) wordDigits
    simp only [stripZeros_append_replicate] at kept
    have bound := stripZeros_length_le (digits 10 w v.m1.natAbs)
    rw [digits_length] at bound
    omega
  have low := lowZeros_add_stripped (ds.take 9)
  have width : (ds.take 9).length ≤ 9 := by simp
  refine ⟨by rw [mant, shifted, Nat.mul_mod_left], by omega, by omega⟩

/-! ## Choosing the numeric form -/

/-- The value is a string and nothing else. -/
structure Mval.IsString (v : Mval) : Prop where
  mvtype : v.mvtype = ⟨false, false, true, false, false⟩

/-- The scan found the digits `ds` of a decimal, padded with zeros, and its sign
and exponent. -/
structure Scan.Reads (sc : Scan) (d : Decimal) (n : Nat) (ds : List Nat) : Prop where
  padded : ds = d.significant ++ List.replicate n 0
  m1 : sc.m1 = evalFrom 10 0 (ds.take 9)
  low : sc.i = lowZeros 0 (ds.take 9)
  room : sc.k = 9 - (ds.take 9).length
  m0 : sc.m0 = d.mant % 10 ^ 9
  digit : sc.digit = true
  exponent : sc.x + (if sc.dot then sc.y else sc.z) = d.exp
  sign : decide (sc.sign % 2 = 1) = d.neg

/-- The scaled first word of an `MV_INT` value. The first word ends in enough
zeros for the division to be exact. -/
theorem Scan.Reads.thousandths {sc : Scan} {d : Decimal} {n : Nat} {ds : List Nat}
    (reads : sc.Reads d n ds) (empty : sc.m0 = 0) (whole : d.exp ≤ 6)
    (zeros : 0 ≤ sc.i + (d.exp + sc.k - 6)) :
    ∃ m : Nat, m < MANT_HI ∧ (m : ℚ) / MV_BIAS = d.mant * 10 ^ (d.exp - 18) ∧
      (if d.exp + sc.k - 6 < 0 then
        (sc.m1 : Int).tdiv (if d.neg then -ten_pwr (d.exp + sc.k - 6).natAbs
          else ten_pwr (d.exp + sc.k - 6).natAbs)
       else sc.m1 * (if d.neg then -(ten_pwr (d.exp + sc.k - 6).natAbs : Int)
          else ten_pwr (d.exp + sc.k - 6).natAbs)) = if d.neg then -(m : Int) else m := by
  have hi := d.hi
  obtain ⟨upper, lower⟩ := d.words n ds reads.padded
  rw [← reads.m1, ← reads.room] at upper
  have mant : d.mant = sc.m1 * 10 ^ sc.k * 10 ^ 9 := by
    rw [upper]
    have split := Nat.div_add_mod d.mant (10 ^ 9)
    rw [← reads.m0, empty] at split
    omega
  have count := lowZeros_add_stripped (ds.take 9)
  have width : (ds.take 9).length ≤ 9 := by simp
  have room := reads.room
  have low := reads.low
  -- The scaled word is `m1` times a power of ten, negative or not.
  have scaled : ∀ m : Nat, (m : ℚ) = sc.m1 * 10 ^ (d.exp + sc.k - 6) →
      (m : ℚ) / MV_BIAS = d.mant * 10 ^ (d.exp - 18) := by
    intro m same
    have power : (10 : ℚ) ^ sc.k * 10 ^ 9 * 10 ^ (d.exp - 18) =
        10 ^ (d.exp + sc.k - 6) / 1000 := by
      rw [show (1000 : ℚ) = 10 ^ (3 : ℤ) by norm_num, ← zpow_sub₀ (by norm_num), ← zpow_natCast,
        ← zpow_natCast, ← zpow_add₀ (by norm_num), ← zpow_add₀ (by norm_num)]
      congr 1
      push_cast
      ring
    rw [same, mant, MV_BIAS]
    push_cast
    calc (sc.m1 : ℚ) * 10 ^ (d.exp + sc.k - 6) / 1000
        = sc.m1 * (10 ^ (d.exp + sc.k - 6) / 1000) := by ring
      _ = _ := by rw [← power]; ring
  by_cases shrinks : d.exp + sc.k - 6 < 0
  · obtain ⟨p, negated⟩ := Int.eq_ofNat_of_zero_le (show 0 ≤ -(d.exp + sc.k - 6) by omega)
    have index : (d.exp + sc.k - 6).natAbs = p := by omega
    have exact10 : sc.m1 / 10 ^ p * 10 ^ p = sc.m1 := by
      apply Nat.div_mul_cancel
      have divides := evalFrom_eq_stripped (ds.take 9)
      rw [← reads.m1, ← low] at divides
      rw [divides]
      exact Dvd.dvd.mul_left (Nat.pow_dvd_pow 10 (by omega)) _
    refine ⟨sc.m1 / 10 ^ p, ?_, scaled _ ?_, ?_⟩
    · have smaller : sc.m1 / 10 ^ p ≤ sc.m1 := Nat.div_le_self _ _
      have larger : sc.m1 ≤ sc.m1 * 10 ^ sc.k := Nat.le_mul_of_pos_right _ (Nat.pow_pos (by decide))
      simp only [MANT_HI]
      omega
    · rw [show d.exp + sc.k - 6 = -(p : ℤ) by omega, zpow_neg, zpow_natCast, ← div_eq_mul_inv,
        eq_div_iff (by positivity)]
      exact_mod_cast exact10
    · rw [if_pos shrinks, index, ten_pwr_eq p (by omega)]
      cases d.neg <;> simp [Int.tdiv_neg]
  · obtain ⟨p, grows⟩ := Int.eq_ofNat_of_zero_le (show 0 ≤ d.exp + sc.k - 6 by omega)
    have index : (d.exp + sc.k - 6).natAbs = p := by omega
    refine ⟨sc.m1 * 10 ^ p, ?_, scaled _ ?_, ?_⟩
    · have smaller : sc.m1 * 10 ^ p ≤ sc.m1 * 10 ^ sc.k :=
        Nat.mul_le_mul_left _ (Nat.pow_le_pow_right (by decide) (by omega))
      simp only [MANT_HI]
      omega
    · rw [grows, zpow_natCast]
      push_cast
      rfl
    · rw [if_neg shrinks, index, ten_pwr_eq p (by omega)]
      cases d.neg <;> simp

/-- A decimal in range is converted to the canonical value that denotes it. -/
theorem convert_decimal (tg : ThreadGbl) {u : Mval} {sc : Scan} {d : Decimal} {n : Nat}
    {ds : List Nat} (isString : u.IsString) (reads : sc.Reads d n ds) (inRange : d.InRange) :
    ∃ r, convert tg u sc = .ok r ∧ r.u.Canonical ∧ r.u.value = d.value ∧
      r.u.mvtype.numApprox = sc.approximate u.str.length ∧ r.u.str = u.str := by
  have mvtype := isString.mvtype
  obtain ⟨upper, lower⟩ := d.words n ds reads.padded
  rw [← reads.m1, ← reads.room] at upper
  have width : sc.k ≤ 9 := by
    rw [reads.room]
    omega
  have m1 : sc.m1 * ten_pwr sc.k = d.mant / 10 ^ 9 := by rw [ten_pwr_eq _ width, upper]
  have lo := d.lo
  have hi := d.hi
  obtain ⟨aboveRange, belowRange⟩ := inRange
  simp only [convert, reads.digit, reads.exponent, reads.sign, Bool.true_eq_false, if_false, mvtype,
    Bool.false_or]
  generalize sc.approximate u.str.length = approx
  by_cases isInt : sc.m0 = 0 ∧ d.exp ≤ 6 ∧ 0 ≤ (sc.i : Int) + (d.exp + sc.k - 6)
  · obtain ⟨m, small, value, word⟩ := reads.thousandths isInt.1 isInt.2.1 isInt.2.2
    rw [if_pos isInt]
    refine ⟨_, rfl, .inl ⟨rfl, rfl, ?_⟩, ?_, rfl, rfl⟩
    · simp only [word]
      cases d.neg <;> simpa using small
    · simp only [Mval.value, word, if_true, Decimal.value, ← value]
      cases d.neg <;> simp [signFactor, neg_div]
  · have notLow : ¬ (d.exp + (MV_XBIAS : ℤ) < (EXPLO : ℤ) ∨ sc.m1 * ten_pwr sc.k = 0) := by
      simp only [MV_XBIAS, EXPLO]
      omega
    have notHigh : ¬ ((EXPHI : ℤ) ≤ d.exp + (MV_XBIAS : ℤ)) := by
      simp only [MV_XBIAS, EXPHI]
      omega
    rw [if_neg isInt, if_neg notLow, if_neg notHigh]
    simp only [m1, reads.m0]
    set w : Mval := ⟨⟨true, false, true, approx, false⟩, d.neg, (d.exp + MV_XBIAS).toNat,
      (d.mant % 10 ^ 9 : Nat), (d.mant / 10 ^ 9 : Nat), u.str⟩ with word
    have isFloat : w.IsFloat := by
      refine ⟨rfl, rfl, ?_, ?_, ?_, ?_, ?_, ?_⟩ <;>
        simp only [word, MANT_LO, MANT_HI, MV_XBIAS, EXPLO, EXPHI] <;> omega
    have decimal : isFloat.toDecimal = d := by
      refine Decimal.ext rfl ?_ ?_
      · simp only [Mval.IsFloat.toDecimal, word, MV_XBIAS]
        omega
      · simp only [Mval.IsFloat.toDecimal, word]
        omega
    have value : w.value = d.value := by rw [← isFloat.toDecimal_value, decimal]
    refine ⟨_, rfl, .inr ⟨isFloat, ?_⟩, value, rfl, rfl⟩
    rintro ⟨m, small, same⟩
    obtain ⟨empty, whole, zeros⟩ := d.intForm_of_representable n ds reads.padded m small
      (value.symm.trans same)
    rw [← reads.low, ← reads.room] at zeros
    exact isInt ⟨by rw [reads.m0, empty], whole, zeros⟩

/-! ## Scanning a canonical text -/

theorem digitByte_ne (d : Nat) (small : d < 10) (c : UInt8) (noDigit : isDigit c = false) :
    digitByte d ≠ c := by
  intro same
  rw [← same, isDigit_digitByte d small] at noDigit
  cases noDigit

theorem scanSigns_signText (neg : Bool) (c : UInt8) (rest : List UInt8)
    (noMinus : c ≠ Ascii.minus) (noPlus : c ≠ Ascii.plus) :
    scanSigns 0 (Decimal.signText neg ++ c :: rest) = (if neg then 1 else 0, c :: rest) := by
  cases neg <;> simp [Decimal.signText, scanSigns, noMinus, noPlus]

/-- What a scan that ends within the mantissa of `text` leaves. -/
def Mantissa.toScan (r : Mantissa) (text : List UInt8) (neg : Bool) : Scan :=
  ⟨if neg then 1 else 0, 0, r.dot, r.y, r.z, r.first.i, r.first.room, r.first.m, r.m0,
    endsBadly text [] r.dot, decide (r.z ≠ 0 ∨ r.y ≠ 0), false, 0, []⟩

/-- A text that starts with a nonzero digit. -/
theorem scan_of_digit (neg : Bool) (first : Nat) (rest : List UInt8) (r : Mantissa)
    (small : first < 10) (nonzero : first ≠ 0)
    (mantissa : scanMantissa 0 false (digitByte first :: rest) = r) (done : r.rest = []) :
    scan (Decimal.signText neg ++ digitByte first :: rest) =
      r.toScan (Decimal.signText neg ++ digitByte first :: rest) neg := by
  have signs := scanSigns_signText neg (digitByte first) rest
    (digitByte_ne first small _ rfl) (digitByte_ne first small _ rfl)
  have noZero : digitByte first ≠ Ascii.zero := mt (digitByte_eq_zero first small).mp nonzero
  have zeros : scanZeros 0 (digitByte first :: rest) = (0, digitByte first :: rest) := by
    rw [scanZeros, if_neg noZero]
  have point : scanPoint (digitByte first :: rest) = (false, 0, digitByte first :: rest) := by
    simp [scanPoint, digitByte_ne first small Ascii.dot rfl, zeros]
  simp [scan, signs, zeros, point, mantissa, done, scanExcess, Mantissa.toScan]

/-- A text that starts with a point and zeros. -/
theorem scan_of_point (neg : Bool) (n : Nat) (rest : List UInt8) (r : Mantissa)
    (noZero : rest.head? ≠ some Ascii.zero) (mantissa : scanMantissa (-n) true rest = r)
    (done : r.rest = []) :
    scan (Decimal.signText neg ++ Ascii.dot :: (List.replicate n Ascii.zero ++ rest)) =
      r.toScan (Decimal.signText neg ++ Ascii.dot :: (List.replicate n Ascii.zero ++ rest)) neg := by
  have signs := scanSigns_signText neg Ascii.dot (List.replicate n Ascii.zero ++ rest)
    (by decide) (by decide)
  have point : scanPoint (Ascii.dot :: (List.replicate n Ascii.zero ++ rest)) =
      (true, -(n : Int), rest) := by
    simp [scanPoint, scanZeros_run 0 n rest noZero]
  have zeros : scanZeros 0 (Ascii.dot :: (List.replicate n Ascii.zero ++ rest)) =
      (0, Ascii.dot :: (List.replicate n Ascii.zero ++ rest)) := rfl
  simp [scan, signs, zeros, point, mantissa, done, scanExcess, Mantissa.toScan]

/-- A mantissa that holds the digits of a decimal scans to it. -/
theorem Mantissa.Holds.reads {r : Mantissa} {d : Decimal} {n : Nat} {ds : List Nat}
    (holds : r.Holds ds) (padded : ds = d.significant ++ List.replicate n 0)
    (text : List UInt8) (exponent : (if r.dot then r.y else r.z) = d.exp)
    (digit : r.z ≠ 0 ∨ r.y ≠ 0) : (r.toScan text d.neg).Reads d n ds where
  padded := padded
  m1 := holds.m1
  low := holds.low
  room := holds.room
  m0 := holds.m0.trans (d.words n ds padded).2
  digit := by simpa [Mantissa.toScan] using digit
  exponent := by simpa [Mantissa.toScan] using exponent
  sign := by cases sign : d.neg <;> simp [Mantissa.toScan]

theorem Mantissa.toScan_exact (r : Mantissa) (text : List UInt8) (neg : Bool) (len : Nat)
    (ends : endsBadly text [] r.dot = false) : (r.toScan text neg).approximate len = false := by
  cases neg <;> simp [Mantissa.toScan, Scan.approximate, ends]

/-- A text whose last digit is not zero ends well. -/
theorem endsBadly_of_last (before : List UInt8) (final : Nat) (small : final < 10)
    (nonzero : final ≠ 0) (dot : Bool) :
    endsBadly (before ++ [digitByte final]) [] dot = false := by
  have noDot := digitByte_ne final small Ascii.dot rfl
  have noZero : digitByte final ≠ Ascii.zero := mt (digitByte_eq_zero final small).mp nonzero
  simp [endsBadly, noDot, noZero]

theorem Decimal.last_byte (d : Decimal) (fraction : List Nat) (some : fraction ≠ [])
    (suffix : ∃ before, d.significant = before ++ fraction) : ∃ before final,
    fraction.map digitByte = before ++ [digitByte final] ∧ final < 10 ∧ final ≠ 0 := by
  obtain ⟨before, same⟩ := suffix
  obtain ⟨kept, final, last, nonzero⟩ := d.significant_last
  have small := d.significant_lt final (by rw [last]; simp)
  have final_eq : fraction.getLast some = final := by
    have ends := congrArg List.getLast? (same.symm.trans last)
    rw [List.getLast?_append, List.getLast?_concat, List.getLast?_eq_some_getLast some] at ends
    exact Option.some.inj ends
  refine ⟨fraction.dropLast.map digitByte, final, ?_, small, nonzero⟩
  conv_lhs => rw [← List.dropLast_concat_getLast some, final_eq, List.map_append]
  rfl

/-- A text that ends in significant digits behind the point ends well. -/
theorem Decimal.endsWell (d : Decimal) {before : List UInt8} {fraction : List Nat}
    (some : fraction ≠ []) (suffix : ∃ before, d.significant = before ++ fraction)
    (text : d.text = before ++ fraction.map digitByte) : endsBadly d.text [] true = false := by
  obtain ⟨bytes, final, last, small, nonzero⟩ := d.last_byte fraction some suffix
  rw [text, last, ← List.append_assoc]
  exact endsBadly_of_last _ final small nonzero true

/-- Scanning the text of a decimal finds its digits, sign and exponent, and
nothing that makes it approximate. -/
theorem scan_text (d : Decimal) : ∃ n ds, (scan d.text).Reads d n ds ∧
    (scan d.text).approximate d.text.length = false := by
  obtain ⟨first, rest, head, nonzero⟩ := d.significant_head
  have bounded := d.significant_lt
  have small : first < 10 := bounded first (by rw [head]; simp)
  rcases d.text_shapes with ⟨n, exp, integer, text⟩ |
      ⟨whole, fraction, exp, split, wholeSome, fractionSome, text⟩ | ⟨n, exp, text⟩
  · -- An integer: the zeros behind the significant digits are read as digits.
    obtain ⟨ds, padded⟩ : ∃ ds, ds = d.significant ++
      List.replicate (n - d.significant.length) 0 := ⟨_, rfl⟩
    have bytes : ds.map digitByte = digitByte first :: (rest ++
        List.replicate (n - d.significant.length) 0).map digitByte := by
      rw [padded, head]
      simp
    have dsBounded := d.padded_lt padded
    have length : ds.length = n := by
      rw [padded, List.length_append, List.length_replicate]
      omega
    have excess : ds.drop 18 = List.replicate (n - d.significant.length -
        (18 - d.significant.length)) 0 := by
      rw [padded, List.drop_append, List.drop_of_length_le d.significant_length,
        List.drop_replicate, List.nil_append]
    have positive : 0 < d.significant.length := by rw [head]; simp
    obtain ⟨holds, y, dot, more, leaves, z⟩ :=
      scanMantissa_run 0 false ds dsBounded [] noDigit_nil (.inr (.inl (by simp))) _ rfl
    obtain rfl := leaves.nothing _ excess
    have done := leaves.text
    rw [List.length_nil, Nat.add_zero] at z
    rw [← padded, bytes] at text
    rw [List.append_nil, bytes] at holds y z dot done
    rw [text, scan_of_digit d.neg first _ _ small nonzero rfl done]
    refine ⟨_, ds, holds.reads padded _ ?_ (.inl (by omega)), Mantissa.toScan_exact _ _ _ _ ?_⟩
    · rw [dot, z, length, exp]
      rfl
    · rw [dot]
      rfl
  · have positive : 0 < whole.length := List.length_pos_iff.mpr wholeSome
    obtain ⟨wholeRest, wholeHead⟩ : ∃ wholeRest, whole = first :: wholeRest := by
      cases whole with
      | nil => exact absurd rfl wholeSome
      | cons w ws =>
        rw [split, List.cons_append] at head
        exact ⟨ws, by rw [(List.cons.inj head).1]⟩
    have bytes : whole.map digitByte ++ Ascii.dot :: fraction.map digitByte =
        digitByte first :: (wholeRest.map digitByte ++ Ascii.dot :: fraction.map digitByte) := by
      rw [wholeHead]
      rfl
    have ends := d.endsWell fractionSome ⟨whole, split⟩
      (text.trans (by rw [List.append_cons, ← List.append_assoc]))
    have short := d.significant_length
    rw [split] at bounded short
    have fractionPositive : 0 < fraction.length := List.length_pos_iff.mpr fractionSome
    have all := short
    rw [List.length_append] at all
    obtain ⟨holds, y, dot, more, leaves⟩ := scanMantissa_point 0 whole fraction
      (fun e member => bounded e (List.mem_append_left _ member))
      (fun e member => bounded e (List.mem_append_right _ member)) (by omega) [] noDigit_nil _ rfl
    obtain rfl := leaves.nothing 0 (List.drop_of_length_le short)
    have done := leaves.text
    rw [bytes] at text
    rw [List.append_nil, bytes] at holds y dot done
    rw [text, scan_of_digit d.neg first _ _ small nonzero rfl done]
    refine ⟨0, whole ++ fraction, holds.reads (by simp [split]) _ ?_ (.inr (by omega)),
      Mantissa.toScan_exact _ _ _ _ ?_⟩
    · rw [dot, y, exp]
      rfl
    · rw [dot, ← text, ends]
  · have bytes : d.significant.map digitByte = digitByte first :: rest.map digitByte := by
      rw [head]
      rfl
    have noZero : (d.significant.map digitByte).head? ≠ some Ascii.zero := by
      rw [bytes]
      simpa using mt (digitByte_eq_zero first small).mp nonzero
    have ends := d.endsWell d.significant_ne_nil ⟨[], rfl⟩
      (text.trans (by rw [List.append_cons, ← List.append_assoc]))
    have positive : 0 < d.significant.length := by rw [head]; simp
    obtain ⟨holds, y, dot, more, leaves, z⟩ :=
      scanMantissa_run (-n) true d.significant bounded [] noDigit_nil (.inl rfl) _ rfl
    obtain rfl := leaves.nothing 0 (List.drop_of_length_le d.significant_length)
    have done := leaves.text
    rw [List.length_nil, Nat.add_zero] at z
    rw [List.append_nil] at holds y z dot done
    rw [text, scan_of_point d.neg n _ _ noZero rfl done]
    refine ⟨0, d.significant, holds.reads (by simp) _ ?_ (.inl (by omega)),
      Mantissa.toScan_exact _ _ _ _ ?_⟩
    · rw [dot, y, exp]
      rfl
    · rw [dot, ← text, ends]

end Ydb
