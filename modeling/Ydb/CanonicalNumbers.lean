import Ydb.NumeralScans

/-!
# Canonical numbers

The routines `s2n`, `n2s` and `valIscan` agree on what a canonical number is. The
strings `valIscan` accepts are zero and the texts of decimals in the exponent
range. `s2n` reads each of them into the one canonical value that prints as it,
and marks every other string it can convert as approximate.
-/

namespace Ydb

open Lib

/-! ## Accepted strings -/

/-- Zero, or the text of a decimal in the exponent range. -/
def CanonicalText (text : List UInt8) : Prop :=
  text = [Ascii.zero] ∨ ∃ d : Decimal, d.InRange ∧ text = d.text

theorem iscanAccepts_iff (text : List UInt8) (dot : Bool) (sigdigs : Nat) (exp : Int) :
    iscanAccepts text [] dot sigdigs exp = true ↔
      endsBadly text [] dot = false ∧ sigdigs ≤ 18 ∧ -42 ≤ exp ∧ exp < 48 := by
  simp only [iscanAccepts, Bool.not_eq_true', Bool.or_eq_false_iff, decide_eq_false_iff_not]
  simp only [NUM_DEC_DG_2L, MV_XBIAS, EXPLO, EXPHI]
  constructor
  · rintro ⟨⟨⟨ends, short⟩, low⟩, high⟩
    exact ⟨ends, by omega, by omega, by omega⟩
  · rintro ⟨ends, short, low, high⟩
    exact ⟨⟨⟨ends, by omega⟩, by omega⟩, by omega⟩

theorem endsBadly_of_rest (text : List UInt8) (c : UInt8) (rest : List UInt8) (dot : Bool) :
    endsBadly text (c :: rest) dot = true := by simp [endsBadly]

theorem iscanAccepts_rest (text rest : List UInt8) (dot : Bool) (sigdigs : Nat) (exp : Int)
    (accepted : iscanAccepts text rest dot sigdigs exp = true) : rest = [] := by
  cases rest with
  | nil => rfl
  | cons c rest =>
    rw [iscanAccepts, endsBadly_of_rest] at accepted
    simp at accepted

/-- A fraction that ends well has a last digit, which is not zero. -/
theorem last_of_endsWell (before : List UInt8) (ds : List Nat) (bounded : ∀ d ∈ ds, d < 10)
    (opened : before.getLast? = some Ascii.dot ∨ before.getLast? = some Ascii.zero)
    (ends : endsBadly (before ++ ds.map digitByte) [] true = false) :
    ∃ kept final, ds = kept ++ [final] ∧ final ≠ 0 := by
  rcases List.eq_nil_or_concat ds with rfl | ⟨kept, final, rfl⟩
  · rcases opened with dot | zero <;> simp [endsBadly, *] at ends
  · refine ⟨kept, final, List.concat_eq_append, ?_⟩
    rintro rfl
    simp [endsBadly, digitByte] at ends

/-- Behind a point and zeros stands the point or a zero. -/
theorem opened_by_point (before : List UInt8) (n : Nat) :
    (before ++ Ascii.dot :: List.replicate n Ascii.zero).getLast? = some Ascii.dot ∨
      (before ++ Ascii.dot :: List.replicate n Ascii.zero).getLast? = some Ascii.zero := by
  cases n with
  | zero => simp
  | succ n =>
    rw [List.replicate_succ', ← List.cons_append, ← List.append_assoc, List.getLast?_concat]
    exact .inr rfl

theorem stripZeros_of_last {ds : List Nat} (last : ∃ kept final, ds = kept ++ [final] ∧ final ≠ 0) :
    stripZeros ds = ds := by
  obtain ⟨kept, final, rfl, nonzero⟩ := last
  exact stripZeros_concat kept final nonzero

/-- The sign of a text whose first character decides it. -/
theorem signText_cases (text : List UInt8) : ∃ neg : Bool, text = Decimal.signText neg ++
    (if text.head? = some Ascii.minus then text.tail else text) := by
  by_cases minus : text.head? = some Ascii.minus
  · refine ⟨true, ?_⟩
    rw [if_pos minus]
    cases text with
    | nil => simp at minus
    | cons c rest =>
      rw [List.head?_cons, Option.some.injEq] at minus
      rw [minus]
      rfl
  · exact ⟨false, by rw [if_neg minus]; rfl⟩

/-- A nonzero digit at the head of a run. -/
theorem run_head {p : UInt8} {after rest : List UInt8} {ds : List Nat}
    (run : p :: after = ds.map digitByte ++ rest) (bounded : ∀ d ∈ ds, d < 10)
    (stops : NoDigit rest) (digit : isDigit p = true) (nonzero : p ≠ Ascii.zero) :
    ∃ first others, ds = first :: others ∧ first ≠ 0 := by
  cases ds with
  | nil =>
    rw [List.map_nil, List.nil_append] at run
    rw [stops p after run.symm] at digit
    cases digit
  | cons first others =>
    refine ⟨first, others, rfl, ?_⟩
    rintro rfl
    rw [List.map_cons, List.cons_append] at run
    exact nonzero (List.cons.inj run).1

/-- What `iscanBody` accepts is the text of a decimal in range. -/
theorem decimal_of_iscanBody (neg : Bool) (c : List UInt8)
    (accepted : iscanBody (Decimal.signText neg ++ c) c = true) :
    ∃ d : Decimal, d.InRange ∧ Decimal.signText neg ++ c = d.text := by
  cases c with
  | nil => simp [iscanBody] at accepted
  | cons p after =>
    rw [iscanBody] at accepted
    by_cases leading : isDigit p = true ∧ p ≠ Ascii.zero
    · rw [if_pos leading] at accepted
      obtain ⟨ds, rest, run, bounded, stops⟩ := exists_digit_run (p :: after)
      have head := run_head run bounded stops leading.1 leading.2
      have count := lowZeros_add_stripped ds
      rw [run] at accepted ⊢
      simp only [iscanDigits_run 1 0 0 0 ds rest bounded stops] at accepted
      cases rest with
      | nil =>
        simp only [List.append_nil, iscanAccepts_iff] at accepted
        obtain ⟨d, exp, _, _, text⟩ := Decimal.exists_text_whole neg ds bounded head (by omega)
        refine ⟨d, ⟨by omega, by omega⟩, ?_⟩
        rw [List.append_nil, text]
      | cons q fraction =>
        by_cases point : q = Ascii.dot
        · obtain ⟨fs, more, fractionRun, fractionBounded, fractionStops⟩ :=
            exists_digit_run fraction
          subst point fractionRun
          simp only [if_true, iscanDigits_run 0 _ _ _ fs more fractionBounded fractionStops,
            ← lowZeros_append] at accepted
          obtain rfl := iscanAccepts_rest _ _ _ _ _ accepted
          have total := lowZeros_add_stripped (ds ++ fs)
          have regroup : Decimal.signText neg ++ (ds.map digitByte ++ Ascii.dot ::
              fs.map digitByte) = (Decimal.signText neg ++ ds.map digitByte ++
                Ascii.dot :: List.replicate 0 Ascii.zero) ++ fs.map digitByte := by simp
          rw [iscanAccepts_iff, List.append_nil, regroup] at accepted
          have last := last_of_endsWell _ fs fractionBounded (opened_by_point _ 0) accepted.1
          obtain ⟨d, exp, _, _, text⟩ := Decimal.exists_text_point neg ds fs bounded
            fractionBounded head last (by
              rw [stripZeros_append ds fs, stripZeros_of_last last] at total
              · simp only [List.length_append] at total
                omega
              · rw [stripZeros_of_last last]
                obtain ⟨kept, final, rfl, _⟩ := last
                simp)
          refine ⟨d, ⟨by omega, by omega⟩, ?_⟩
          rw [text, List.append_nil]
        · simp only [point, if_false] at accepted
          exact absurd (iscanAccepts_rest _ _ _ _ _ accepted) (by simp)
    · rw [if_neg leading] at accepted
      by_cases point : p = Ascii.dot
      · subst point
        rw [if_pos rfl] at accepted
        obtain ⟨n, more, zeroRun, noZero⟩ := exists_zero_run after
        obtain ⟨fs, rest, run, bounded, stops⟩ := exists_digit_run more
        subst run zeroRun
        simp only [scanZeros_run 0 n _ noZero, iscanDigits_run 0 0 0 _ fs rest bounded stops]
          at accepted
        obtain rfl := iscanAccepts_rest _ _ _ _ _ accepted
        rw [iscanAccepts_iff, List.append_nil, ← List.cons_append, ← List.append_assoc] at accepted
        have last := last_of_endsWell _ fs bounded (opened_by_point _ n) accepted.1
        have head : ∃ first others, fs = first :: others ∧ first ≠ 0 := by
          cases fs with
          | nil =>
            obtain ⟨kept, final, impossible, _⟩ := last
            simp at impossible
          | cons first others =>
            refine ⟨first, others, rfl, ?_⟩
            rintro rfl
            exact noZero rfl
        obtain ⟨d, exp, _, _, text⟩ := Decimal.exists_text_fraction neg n fs bounded head last
          (by omega)
        refine ⟨d, ⟨by omega, by omega⟩, ?_⟩
        rw [text, List.append_nil]
      · rw [if_neg point] at accepted
        cases accepted

/-- The text of a decimal behind its sign. -/
theorem Decimal.text_body (d : Decimal) : ∃ c rest, d.text = signText d.neg ++ c :: rest ∧
    c ≠ Ascii.minus ∧ c ≠ Ascii.zero := by
  obtain ⟨first, rest, head, nonzero⟩ := d.significant_head
  have small : first < 10 := d.significant_lt first (by rw [head]; simp)
  have noMinus := digitByte_ne first small Ascii.minus rfl
  have noZero := mt (digitByte_eq_zero first small).mp nonzero
  rcases d.text_shapes with ⟨n, _, _, text⟩ | ⟨whole, fraction, _, split, wholeSome, _, text⟩ |
      ⟨n, _, text⟩
  · rw [head, List.cons_append, List.map_cons] at text
    exact ⟨_, _, text, noMinus, noZero⟩
  · cases whole with
    | nil => exact absurd rfl wholeSome
    | cons w ws =>
      rw [split, List.cons_append] at head
      rw [(List.cons.inj head).1, List.map_cons, List.cons_append] at text
      exact ⟨_, _, text, noMinus, noZero⟩
  · exact ⟨_, _, text, by decide, by decide⟩

/-- Behind the sign of a decimal in range, `iscanBody` accepts. -/
theorem iscanBody_text (d : Decimal) (inRange : d.InRange) (c : UInt8) (rest : List UInt8)
    (body : d.text = Decimal.signText d.neg ++ c :: rest) :
    iscanBody d.text (c :: rest) = true := by
  obtain ⟨low, high⟩ := inRange
  obtain ⟨first, others, head, nonzero⟩ := d.significant_head
  have bounded := d.significant_lt
  have short := d.significant_length
  have small : first < 10 := bounded first (by rw [head]; simp)
  have leading : isDigit (digitByte first) = true ∧ digitByte first ≠ Ascii.zero :=
    ⟨isDigit_digitByte first small, mt (digitByte_eq_zero first small).mp nonzero⟩
  rcases d.text_shapes with ⟨n, exp, integer, text⟩ |
      ⟨whole, fraction, exp, split, wholeSome, fractionSome, text⟩ | ⟨n, exp, text⟩
  · obtain ⟨ds, padded⟩ : ∃ ds, ds = d.significant ++
      List.replicate (n - d.significant.length) 0 := ⟨_, rfl⟩
    rw [← padded] at text
    have same := List.append_cancel_left (body.symm.trans text)
    have dsBounded := d.padded_lt padded
    have starts : c = digitByte first := by
      rw [padded, head, List.cons_append, List.map_cons] at same
      exact (List.cons.inj same).1
    have run := iscanDigits_run 1 0 0 0 ds [] dsBounded noDigit_nil
    rw [List.append_nil, ← same] at run
    have count := lowZeros_add_stripped ds
    have kept : stripZeros ds = d.significant := by
      rw [padded, stripZeros_append_replicate, Decimal.significant, stripZeros_idem]
    have length : ds.length = n := by
      rw [padded, List.length_append, List.length_replicate]
      omega
    rw [kept] at count
    rw [iscanBody, if_pos (by rw [starts]; exact leading)]
    simp only [run, iscanAccepts_iff]
    refine ⟨rfl, by omega, by omega, by omega⟩
  · have same := List.append_cancel_left (body.symm.trans text)
    have ends := d.endsWell fractionSome ⟨whole, split⟩
      (text.trans (by rw [List.append_cons, ← List.append_assoc]))
    have starts : c = digitByte first := by
      cases whole with
      | nil => exact absurd rfl wholeSome
      | cons w ws =>
        rw [split, List.cons_append] at head
        rw [(List.cons.inj head).1, List.map_cons, List.cons_append] at same
        exact (List.cons.inj same).1
    rw [split] at bounded short
    rw [List.length_append] at short
    have run := iscanDigits_run 1 0 0 0 whole (Ascii.dot :: fraction.map digitByte)
      (fun e member => bounded e (List.mem_append_left _ member)) (noDigit_dot _)
    have fractionRun := iscanDigits_run 0 (lowZeros 0 whole) (0 + whole.length)
      (0 + 1 * whole.length) fraction []
      (fun e member => bounded e (List.mem_append_right _ member)) noDigit_nil
    rw [← same] at run
    rw [List.append_nil] at fractionRun
    rw [iscanBody, if_pos (by rw [starts]; exact leading)]
    simp only [run, fractionRun, if_true, iscanAccepts_iff]
    refine ⟨ends, by omega, by omega, by omega⟩
  · have same := List.append_cancel_left (body.symm.trans text)
    obtain ⟨starts, behind⟩ := List.cons.inj same
    have ends := d.endsWell d.significant_ne_nil ⟨[], rfl⟩
      (text.trans (by rw [List.append_cons, ← List.append_assoc]))
    have noZero : (d.significant.map digitByte).head? ≠ some Ascii.zero := by
      rw [head]
      simpa using leading.2
    have run := iscanDigits_run 0 0 0 (-(0 + n : Nat)) d.significant [] bounded noDigit_nil
    rw [List.append_nil] at run
    rw [iscanBody, starts, behind, if_neg (by decide), if_pos rfl]
    simp only [scanZeros_run 0 n _ noZero, run, iscanAccepts_iff]
    refine ⟨ends, by omega, by omega, by omega⟩

/-- `val_iscan` accepts exactly zero and the texts of decimals in range. -/
theorem valIscanText_iff (text : List UInt8) : valIscanText text = true ↔ CanonicalText text := by
  constructor
  · intro accepted
    rw [valIscanText] at accepted
    by_cases empty : text = []
    · rw [if_pos empty] at accepted
      cases accepted
    by_cases zero : text = [Ascii.zero]
    · exact .inl zero
    rw [if_neg empty, if_neg zero] at accepted
    obtain ⟨neg, split⟩ := signText_cases text
    generalize (if text.head? = some Ascii.minus then text.tail else text) = c at split accepted
    subst split
    exact .inr (decimal_of_iscanBody neg c accepted)
  · rintro (rfl | ⟨d, inRange, rfl⟩)
    · rfl
    · obtain ⟨c, rest, body, noMinus, noZero⟩ := d.text_body
      have accepted := iscanBody_text d inRange c rest body
      rw [valIscanText]
      rw [body] at accepted ⊢
      clear body
      generalize d.neg = neg at accepted
      cases neg <;> simp_all [Decimal.signText]

/-! ## Shapes of a string scanned to its end -/

theorem packDigits_shape (m i z room : Nat) (c : List UInt8) : ∃ ds : List Nat,
    (∀ d ∈ ds, d < 10) ∧ ds.length + (packDigits m i z room c).room = room ∧
      c = ds.map digitByte ++ (packDigits m i z room c).rest := by
  induction c generalizing m i z room with
  | nil => exact ⟨[], by simp, by simp [packDigits], by simp [packDigits]⟩
  | cons b rest ih =>
    rw [packDigits]
    by_cases packs : 0 < room ∧ isDigit b = true
    · have extend : ∀ m i, ∃ ds : List Nat, (∀ d ∈ ds, d < 10) ∧
          ds.length + (packDigits m i (z + 1) (room - 1) rest).room = room ∧
          b :: rest = ds.map digitByte ++ (packDigits m i (z + 1) (room - 1) rest).rest := by
        intro m i
        obtain ⟨ds, bounded, count, same⟩ := ih m i (z + 1) (room - 1)
        refine ⟨digitVal b :: ds, ?_, by rw [List.length_cons]; omega, ?_⟩
        · intro d member
          rcases List.mem_cons.mp member with rfl | later
          · exact digitVal_lt b packs.2
          · exact bounded d later
        · rw [List.map_cons, digitByte_digitVal b packs.2, List.cons_append, ← same]
      rw [if_pos packs]
      by_cases zero : b = Ascii.zero
      · rw [if_pos zero]
        exact extend _ _
      · rw [if_neg zero]
        exact extend _ _
    · rw [if_neg packs]
      exact ⟨[], by simp, by simp, rfl⟩

/-- One word consumes at most nine digits, and a point unless one was seen. -/
theorem scanWord_shape (i : Nat) (y : Int) (z : Nat) (dot : Bool) (c : List UInt8)
    (r : WordScan) (scanned : scanWord i y z dot c = r) :
    (r.dot = dot ∧ ∃ ds : List Nat, (∀ d ∈ ds, d < 10) ∧ ds.length ≤ 9 ∧
        c = ds.map digitByte ++ r.rest) ∨
      (dot = false ∧ r.dot = true ∧ ∃ whole fraction : List Nat, (∀ d ∈ whole, d < 10) ∧
        (∀ d ∈ fraction, d < 10) ∧ whole.length + fraction.length ≤ 9 ∧
        c = whole.map digitByte ++ Ascii.dot :: (fraction.map digitByte ++ r.rest)) := by
  obtain ⟨whole, wholeBounded, count, same⟩ := packDigits_shape 0 i z NUM_DEC_DG_1L c
  simp only [scanWord] at scanned
  rw [NUM_DEC_DG_1L] at count scanned same
  cases rest : (packDigits 0 i z 9 c).rest with
  | nil =>
    rw [rest] at same
    simp only [rest] at scanned
    subst scanned
    exact .inl ⟨rfl, whole, wholeBounded, by omega, same⟩
  | cons p after =>
    rw [rest] at same
    simp only [rest] at scanned
    by_cases point : 0 < (packDigits 0 i z 9 c).room ∧ p = Ascii.dot ∧ dot = false
    · obtain ⟨fraction, fractionBounded, fractionCount, fractionSame⟩ :=
        packDigits_shape (packDigits 0 i z 9 c).m (packDigits 0 i z 9 c).i 0
          (packDigits 0 i z 9 c).room after
      rw [if_pos point] at scanned
      subst scanned
      refine .inr ⟨point.2.2, rfl, whole, fraction, wholeBounded, fractionBounded, by omega, ?_⟩
      conv_lhs => rw [same, point.2.1, fractionSame]
    · rw [if_neg point] at scanned
      subst scanned
      exact .inl ⟨rfl, whole, wholeBounded, by omega, same⟩

theorem bounded_append {left right : List Nat} (leftBounded : ∀ d ∈ left, d < 10)
    (rightBounded : ∀ d ∈ right, d < 10) : ∀ d ∈ left ++ right, d < 10 :=
  fun d member => (List.mem_append.mp member).elim (leftBounded d) (rightBounded d)

theorem bounded_replicate (n : Nat) : ∀ d ∈ List.replicate n 0, d < 10 := by
  intro d member
  rw [List.eq_of_mem_replicate member]
  decide

/-- Digits of which at most `room` stand before a run of zeros. -/
structure ShortDigits (room : Nat) (ds : List Nat) : Prop where
  bounded : ∀ d ∈ ds, d < 10
  short : (stripZeros ds).length ≤ room

theorem shortDigits_pad (room n : Nat) (ds : List Nat) (bounded : ∀ d ∈ ds, d < 10)
    (short : ds.length ≤ room) : ShortDigits room (ds ++ List.replicate n 0) where
  bounded := bounded_append bounded (bounded_replicate n)
  short := by
    rw [stripZeros_append_replicate]
    exact (stripZeros_length_le ds).trans short

theorem shortDigits_of_length (room : Nat) (ds : List Nat) (bounded : ∀ d ∈ ds, d < 10)
    (short : ds.length ≤ room) : ShortDigits room ds :=
  ⟨bounded, (stripZeros_length_le ds).trans short⟩

/-- A mantissa scan that reaches the end of the text saw digits, or digits around
one point. -/
theorem scanMantissa_shape (y : Int) (dot : Bool) (c : List UInt8) (r : Mantissa)
    (scanned : scanMantissa y dot c = r) (done : r.rest = []) :
    (r.dot = dot ∧ ∃ ds : List Nat, ShortDigits 18 ds ∧ c = ds.map digitByte) ∨
      (dot = false ∧ r.dot = true ∧ ∃ whole fraction : List Nat, (∀ d ∈ whole, d < 10) ∧
        whole.length ≤ 18 ∧ ShortDigits (18 - whole.length) fraction ∧
        c = whole.map digitByte ++ Ascii.dot :: fraction.map digitByte) := by
  rw [scanMantissa] at scanned
  have firstShape := scanWord_shape 0 y 0 dot c _ rfl
  generalize scanWord 0 y 0 dot c = first at scanned firstShape
  by_cases ended : first.rest = []
  · simp only [ended, if_true] at scanned
    subst scanned
    rw [ended] at firstShape
    rcases firstShape with ⟨same, ds, bounded, short, text⟩ |
        ⟨before, after, whole, fraction, wholeBounded, fractionBounded, short, text⟩
    · exact .inl ⟨same, ds, shortDigits_of_length 18 ds bounded (by omega), by simpa using text⟩
    · exact .inr ⟨before, after, whole, fraction, wholeBounded, by omega,
        shortDigits_of_length _ fraction fractionBounded (by omega), by simpa using text⟩
  · simp only [ended, if_false] at scanned
    have secondShape := scanWord_shape 0 first.y first.z first.dot first.rest _ rfl
    generalize scanWord 0 first.y first.z first.dot first.rest = second at scanned secondShape
    obtain ⟨n, more, zeros, noZero⟩ := exists_zero_run second.rest
    rw [zeros, scanZeros_run 0 n more noZero] at scanned
    subst scanned
    simp only at done
    rw [done, List.append_nil] at zeros
    rw [zeros] at secondShape
    simp only
    rcases firstShape with ⟨same, ds, bounded, short, text⟩ |
        ⟨before, after, whole, fraction, wholeBounded, fractionBounded, short, text⟩
    · rcases secondShape with ⟨same₂, ds₂, bounded₂, short₂, text₂⟩ |
          ⟨before₂, after₂, whole₂, fraction₂, wholeBounded₂, fractionBounded₂, short₂, text₂⟩
      · refine .inl ⟨same₂.trans same, ds ++ ds₂ ++ List.replicate n 0,
          shortDigits_pad 18 n _ (bounded_append bounded bounded₂)
            (by rw [List.length_append]; omega), ?_⟩
        simp [text, text₂]
      · refine .inr ⟨same.symm.trans before₂, after₂, ds ++ whole₂,
          fraction₂ ++ List.replicate n 0, bounded_append bounded wholeBounded₂,
          by rw [List.length_append]; omega,
          shortDigits_pad _ n _ fractionBounded₂ (by rw [List.length_append]; omega), ?_⟩
        simp [text, text₂]
    · rcases secondShape with ⟨same₂, ds₂, bounded₂, short₂, text₂⟩ | ⟨before₂, _⟩
      · refine .inr ⟨before, same₂.trans after, whole,
          fraction ++ ds₂ ++ List.replicate n 0, wholeBounded, by omega,
          shortDigits_pad _ n _ (bounded_append fractionBounded bounded₂)
            (by rw [List.length_append]; omega), ?_⟩
        simp [text, text₂]
      · rw [after] at before₂
        cases before₂

/-! ## Strings converted exactly -/

/-- At most one sign, and a minus if there is one. -/
theorem scanSigns_shape (sign : Nat) (text : List UInt8) :
    sign ≤ (scanSigns sign text).1 ∧ ((scanSigns sign text).1 = sign →
      (scanSigns sign text).2 = text) ∧ ((scanSigns sign text).1 = sign + 1 →
      text = Ascii.minus :: (scanSigns sign text).2) := by
  induction text generalizing sign with
  | nil => simp [scanSigns]
  | cons c rest ih =>
    rw [scanSigns]
    by_cases minus : c = Ascii.minus
    · obtain ⟨grows, stays, _⟩ := ih (sign + 1)
      rw [if_pos minus]
      refine ⟨by omega, fun same => by omega, fun same => ?_⟩
      rw [stays same, minus]
    · by_cases plus : c = Ascii.plus
      · obtain ⟨grows, _⟩ := ih (sign + 2)
        rw [if_neg minus, if_pos plus]
        exact ⟨by omega, fun same => by omega, fun same => by omega⟩
      · rw [if_neg minus, if_neg plus]
        exact ⟨le_rfl, fun _ => rfl, fun same => by simp at same⟩

/-- What a conversion can do: mark the number approximate, give up on it at
compile time, or choose a numeric form within its limits. -/
theorem convert_cases {tg : ThreadGbl} {u : Mval} {sc : Scan} {r : S2n}
    (converted : convert tg u sc = .ok r) :
    (r.u.mvtype.nm = true ∧ r.u.mvtype.numApprox = true) ∨
      (tg.compile_time = true ∧ r.u.mvtype.nm = false) ∨
      (r.u.mvtype.nm = true ∧ sc.digit = true ∧
        r.u.mvtype.numApprox = (u.mvtype.numApprox || sc.approximate u.str.length) ∧
        ((sc.x + (if sc.dot then sc.y else sc.z) ≤ 6 ∧
            0 ≤ sc.i + (sc.x + (if sc.dot then sc.y else sc.z) + sc.k - 6)) ∨
          (-42 ≤ sc.x + (if sc.dot then sc.y else sc.z) ∧
            sc.x + (if sc.dot then sc.y else sc.z) < 48))) := by
  rw [convert] at converted
  simp only at converted
  generalize sc.x + (if sc.dot then sc.y else sc.z) = x at converted ⊢
  by_cases digit : sc.digit = false
  · rw [if_pos digit] at converted
    obtain rfl := Except.ok.inj converted
    exact .inl ⟨rfl, rfl⟩
  rw [if_neg digit] at converted
  by_cases isInt : sc.m0 = 0 ∧ x ≤ 6 ∧ 0 ≤ (sc.i : Int) + (x + sc.k - 6)
  · rw [if_pos isInt] at converted
    obtain rfl := Except.ok.inj converted
    exact .inr (.inr ⟨rfl, by simpa using digit, rfl, .inl isInt.2⟩)
  rw [if_neg isInt] at converted
  by_cases low : x + (MV_XBIAS : Int) < (EXPLO : Int) ∨ sc.m1 * ten_pwr sc.k = 0
  · rw [if_pos low] at converted
    obtain rfl := Except.ok.inj converted
    exact .inl ⟨rfl, rfl⟩
  rw [if_neg low] at converted
  by_cases high : (EXPHI : Int) ≤ x + (MV_XBIAS : Int)
  · rw [if_pos high] at converted
    by_cases compiling : tg.compile_time = true
    · rw [if_pos compiling] at converted
      obtain rfl := Except.ok.inj converted
      exact .inr (.inl ⟨compiling, rfl⟩)
    · rw [if_neg compiling] at converted
      cases converted
  · rw [if_neg high] at converted
    obtain rfl := Except.ok.inj converted
    simp only [MV_XBIAS, EXPLO, EXPHI] at low high
    exact .inr (.inr ⟨rfl, by simpa using digit, rfl, .inr ⟨by omega, by omega⟩⟩)

/-- The parts of a scan, by name. -/
theorem scan_parts (text : List UInt8) : ∃ c₁ c₂ c₃ dot y,
    scanSigns 0 text = ((scan text).sign, c₁) ∧ scanZeros 0 c₁ = ((scan text).zero, c₂) ∧
      scanPoint c₂ = (dot, y, c₃) ∧
      (scan text).tail = endsBadly text (scanMantissa y dot c₃).rest (scanMantissa y dot c₃).dot :=
  ⟨_, _, _, _, _, rfl, rfl, rfl, rfl⟩

/-- A scan that is not approximate reads zero or the text of a decimal. -/
theorem text_of_exact_scan (text : List UInt8) (digit : (scan text).digit = true)
    (exact : (scan text).approximate text.length = false) :
    text = [Ascii.zero] ∨ ∃ d : Decimal, text = d.text := by
  obtain ⟨c₁, c₂, c₃, dot, y, signs, zeros, point, tail⟩ := scan_parts text
  simp only [Scan.approximate, Bool.or_eq_false_iff, Bool.and_eq_false_iff,
    decide_eq_false_iff_not, not_not] at exact
  obtain ⟨⟨noTail, fewSigns⟩, noZeros⟩ := exact
  obtain ⟨_, unsigned, negative⟩ := scanSigns_shape 0 text
  rw [signs] at unsigned negative
  obtain ⟨neg, split⟩ : ∃ neg, text = Decimal.signText neg ++ c₁ := by
    rcases Nat.lt_or_ge 0 (scan text).sign with one | none
    · exact ⟨true, negative (by simp only; omega)⟩
    · exact ⟨false, (unsigned (by simp only; omega)).symm⟩
  obtain ⟨n, more, zeroRun, noZero⟩ := exists_zero_run c₁
  rw [zeroRun, scanZeros_run 0 n more noZero, Prod.mk.injEq, Nat.zero_add] at zeros
  obtain ⟨count, rfl⟩ := zeros
  by_cases leading : n = 0
  · -- No leading zero: the rest of the text has one of the three shapes.
    rw [leading, List.replicate_zero, List.nil_append] at zeroRun
    subst zeroRun
    rw [tail] at noTail
    have done : (scanMantissa y dot c₃).rest = [] := by
      cases rest : (scanMantissa y dot c₃).rest with
      | nil => rfl
      | cons c rest' => rw [rest, endsBadly_of_rest] at noTail; cases noTail
    rw [done] at noTail
    have shape := scanMantissa_shape y dot c₃ _ rfl done
    refine .inr ?_
    cases c₁ with
    | nil =>
      subst split
      cases neg <;> cases digit
    | cons p after =>
      by_cases isPoint : p = Ascii.dot
      · subst isPoint
        obtain ⟨k, behind, pointRun, behindNoZero⟩ := exists_zero_run after
        simp only [scanPoint, decide_true, if_true, pointRun, scanZeros_run 0 k behind behindNoZero,
          Prod.mk.injEq] at point
        obtain ⟨rfl, rfl, rfl⟩ := point
        rcases shape with ⟨same, ds, short, text'⟩ | ⟨impossible, _⟩
        · have regroup : text = (Decimal.signText neg ++ Ascii.dot ::
              List.replicate k Ascii.zero) ++ ds.map digitByte := by
            rw [split, pointRun, text']
            simp
          rw [same, regroup] at noTail
          have last := last_of_endsWell _ ds short.bounded (opened_by_point _ k) noTail
          have head : ∃ first others, ds = first :: others ∧ first ≠ 0 := by
            cases ds with
            | nil =>
              obtain ⟨kept, final, impossible, _⟩ := last
              simp at impossible
            | cons first others =>
              refine ⟨first, others, rfl, ?_⟩
              rintro rfl
              rw [text'] at behindNoZero
              exact behindNoZero rfl
          have length := short.short
          rw [stripZeros_of_last last] at length
          obtain ⟨d, _, _, _, same⟩ := Decimal.exists_text_fraction neg k ds short.bounded head
            last length
          exact ⟨d, by rw [same, split, pointRun, text']⟩
        · cases impossible
      · have noZeroHead : p ≠ Ascii.zero := by simpa using noZero
        simp only [scanPoint, isPoint, decide_false, if_false, scanZeros, noZeroHead,
          Prod.mk.injEq] at point
        obtain ⟨rfl, rfl, rfl⟩ := point
        have head : ∀ (whole : List Nat) (rest : List UInt8),
            p :: after = whole.map digitByte ++ rest → (∀ q ∈ rest.head?, q = Ascii.dot) →
            ∃ first others, whole = first :: others ∧ first ≠ 0 := by
          intro whole rest same dots
          cases whole with
          | nil =>
            rw [List.map_nil, List.nil_append] at same
            rw [← same] at dots
            exact absurd (dots p rfl) isPoint
          | cons first others =>
            refine ⟨first, others, rfl, ?_⟩
            rintro rfl
            exact noZeroHead (List.cons.inj same).1
        rcases shape with ⟨_, ds, short, text'⟩ |
            ⟨_, dotted, whole, fraction, bounded, fits, short, text'⟩
        · obtain ⟨d, _, _, _, same⟩ := Decimal.exists_text_whole neg ds short.bounded
            (head ds [] (by rw [text', List.append_nil]) (by simp)) short.short
          exact ⟨d, by rw [same, split, text']⟩
        · have regroup : text = (Decimal.signText neg ++ whole.map digitByte ++
              Ascii.dot :: List.replicate 0 Ascii.zero) ++ fraction.map digitByte := by
            rw [split, text']
            simp
          rw [dotted, regroup] at noTail
          have last := last_of_endsWell _ fraction short.bounded (opened_by_point _ 0) noTail
          have length := short.short
          rw [stripZeros_of_last last] at length
          obtain ⟨d, _, _, _, same⟩ := Decimal.exists_text_point neg whole fraction bounded
            short.bounded (head whole _ text' (by simp)) last (by omega)
          exact ⟨d, by rw [same, split, text']⟩
  · -- A leading zero: it is the whole text.
    have single : text.length = 1 := noZeros.resolve_left (by omega)
    refine .inl ?_
    obtain ⟨k, rfl⟩ := Nat.exists_eq_succ_of_ne_zero leading
    rw [zeroRun, List.replicate_succ, List.cons_append] at split
    have count := congrArg List.length split
    rw [List.length_append, List.length_cons, single] at count
    have unsigned : Decimal.signText neg = [] := List.length_eq_zero_iff.mp (by omega)
    have alone : List.replicate k Ascii.zero ++ more = [] := List.length_eq_zero_iff.mp (by omega)
    rw [split, unsigned, alone]
    rfl

theorem Mval.IsString.forced {u : Mval} (isString : u.IsString) : mvForceStr u = u := by
  simp [mvForceStr, isString.mvtype]

theorem valIscan_iff {u : Mval} (isString : u.IsString) :
    valIscan u = true ↔ CanonicalText u.str := by
  rw [valIscan, isString.forced, valIscanText_iff]

/-- A nonempty string is scanned and converted. -/
theorem s2n_eq_convert (tg : ThreadGbl) {u : Mval} (isString : u.IsString) (some : u.str ≠ []) :
    s2n tg u = convert tg u (scan u.str) := by
  simp [s2n, isString.mvtype, some]

/-- Zero is converted to the canonical zero. -/
theorem s2n_of_zero (tg : ThreadGbl) {u : Mval} (isString : u.IsString)
    (text : u.str = [Ascii.zero]) :
    ∃ r, s2n tg u = .ok r ∧ r.u.Canonical ∧ r.u.value = 0 ∧ r.u.mvtype.numApprox = false := by
  have scanned : scan [Ascii.zero] =
      ⟨0, 1, false, 0, 0, 0, 9, 0, 0, false, true, false, 0, []⟩ := by decide
  have isZero : ∀ v : Mval, v.mvtype = ⟨true, true, true, false, false⟩ → v.m1 = 0 →
      v.Canonical ∧ v.value = 0 ∧ v.mvtype.numApprox = false := by
    intro v mvtype m1
    have isInt : v.IsInt := ⟨by rw [mvtype], by rw [mvtype], by rw [m1]; decide⟩
    exact ⟨.inl isInt, isInt.value_eq_zero.mpr m1, by rw [mvtype]⟩
  rw [s2n_eq_convert tg isString (by simp [text]), text, scanned]
  refine ⟨_, rfl, isZero _ ?_ rfl⟩
  simp [isString.mvtype, Scan.approximate, text]

/-- The text of a decimal in range is converted to its canonical value. -/
theorem s2n_of_text (tg : ThreadGbl) {u : Mval} (isString : u.IsString) (d : Decimal)
    (inRange : d.InRange) (text : u.str = d.text) :
    ∃ r, s2n tg u = .ok r ∧ r.u.Canonical ∧ r.u.value = d.value ∧
      r.u.mvtype.numApprox = false := by
  obtain ⟨n, ds, reads, exact⟩ := scan_text d
  rw [← text] at reads exact
  obtain ⟨r, converted, canonical, value, approx, _⟩ :=
    convert_decimal tg isString reads inRange
  have some : u.str ≠ [] := by
    obtain ⟨c, rest, body, _⟩ := d.text_body
    rw [text, body]
    simp
  exact ⟨r, by rw [s2n_eq_convert tg isString some, converted], canonical, value, approx.trans exact⟩

/-- A canonical text is converted to a canonical value that prints as it. -/
theorem s2n_of_canonicalText (tg : ThreadGbl) {u : Mval} (isString : u.IsString)
    (canonical : CanonicalText u.str) :
    ∃ r, s2n tg u = .ok r ∧ r.u.Canonical ∧ r.u.mvtype.numApprox = false ∧
      (n2s r.u).str = u.str := by
  rcases canonical with zero | ⟨d, inRange, text⟩
  · obtain ⟨r, converted, canonical, value, approx⟩ := s2n_of_zero tg isString zero
    refine ⟨r, converted, canonical, approx, ?_⟩
    rcases r.u.form_cases (canonical.imp_right And.left) with ⟨_, _, m1⟩ | ⟨d, same, _⟩
    · rw [zero]
      exact n2sText_zero m1
    · exact absurd (same.trans value) d.value_ne_zero
  · obtain ⟨r, converted, canonical, value, approx⟩ := s2n_of_text tg isString d inRange text
    refine ⟨r, converted, canonical, approx, ?_⟩
    rw [text]
    exact n2sText_eq (canonical.imp_right And.left) d value.symm

/-- A string converted to a number without approximation is a canonical text. -/
theorem canonicalText_of_s2n {tg : ThreadGbl} {u : Mval} {r : S2n} (isString : u.IsString)
    (converted : s2n tg u = .ok r) (isNumber : r.u.mvtype.nm = true)
    (exact : r.u.mvtype.numApprox = false) : CanonicalText u.str := by
  by_cases empty : u.str = []
  · simp only [s2n, isString.mvtype, empty] at converted
    obtain rfl := Except.ok.inj converted
    cases exact
  · rw [s2n_eq_convert tg isString empty] at converted
    rcases convert_cases converted with ⟨_, approx⟩ | ⟨_, noNumber⟩ |
        ⟨_, digit, approx, limits⟩
    · rw [exact] at approx
      cases approx
    · rw [isNumber] at noNumber
      cases noNumber
    rw [exact] at approx
    have exactScan := (Bool.or_eq_false_iff.mp approx.symm).2
    rcases text_of_exact_scan u.str digit exactScan with zero | ⟨d, text⟩
    · exact .inl zero
    · obtain ⟨n, ds, reads, _⟩ := scan_text d
      rw [← text] at reads
      have low := reads.low
      have room := reads.room
      have count := lowZeros_add_stripped (ds.take 9)
      have width : (ds.take 9).length ≤ 9 := by simp
      rw [reads.exponent] at limits
      exact .inr ⟨d, ⟨by omega, by omega⟩, text⟩

/-- At run time every conversion that returns leaves a number. -/
theorem s2n_isNumber {tg : ThreadGbl} {u : Mval} {r : S2n} (runTime : tg.compile_time = false)
    (converted : s2n tg u = .ok r) : r.u.mvtype.nm = true := by
  rw [s2n] at converted
  split at converted
  · cases converted
  split at converted
  · split at converted <;> obtain rfl := Except.ok.inj converted <;> rfl
  · rcases convert_cases converted with ⟨isNumber, _⟩ | ⟨compiling, _⟩ | ⟨isNumber, _⟩
    · exact isNumber
    · rw [runTime] at compiling
      cases compiling
    · exact isNumber

/-- Canonical values and the strings `valIscan` accepts correspond under `n2s`
and `s2n`, and every string converted to a number is marked approximate unless
it is accepted. At run time every conversion that returns leaves a number. -/
theorem canonical_numbers_agree (tg : ThreadGbl) :
    (∀ v : Mval, v.Canonical → valIscanText (n2s v).str = true ∧
      ∀ u : Mval, u.IsString → u.str = (n2s v).str →
        ∃ r, s2n tg u = .ok r ∧ r.u.SameNumber v ∧ r.u.mvtype.numApprox = false) ∧
    (∀ u : Mval, u.IsString → valIscan u = true →
      ∃ r, s2n tg u = .ok r ∧ r.u.Canonical ∧ (n2s r.u).str = u.str) ∧
    (∀ (u : Mval) (r : S2n), u.IsString → s2n tg u = .ok r → r.u.mvtype.nm = true →
      (r.u.mvtype.numApprox = false ↔ valIscan u = true)) ∧
    (tg.compile_time = false → ∀ (u : Mval) (r : S2n), s2n tg u = .ok r →
      r.u.mvtype.nm = true) := by
  refine ⟨?_, ?_, ?_, fun runTime u r converted => s2n_isNumber runTime converted⟩
  · intro v canonical
    have form : v.IsInt ∨ v.IsFloat := canonical.imp_right And.left
    rcases v.form_cases form with ⟨value, _, zero⟩ | ⟨d, value, inRange⟩
    · have printed : (n2s v).str = [Ascii.zero] := n2sText_zero zero
      refine ⟨(valIscanText_iff _).mpr (.inl printed), ?_⟩
      intro u isString same
      obtain ⟨r, converted, result, sameValue, approx⟩ :=
        s2n_of_zero tg isString (same.trans printed)
      exact ⟨r, converted, result.fields_unique canonical (sameValue.trans value.symm), approx⟩
    · have printed : (n2s v).str = d.text := n2sText_eq form d value
      refine ⟨(valIscanText_iff _).mpr (.inr ⟨d, inRange, printed⟩), ?_⟩
      intro u isString same
      obtain ⟨r, converted, result, sameValue, approx⟩ :=
        s2n_of_text tg isString d inRange (same.trans printed)
      exact ⟨r, converted, result.fields_unique canonical (sameValue.trans value), approx⟩
  · intro u isString accepted
    obtain ⟨r, converted, canonical, _, back⟩ :=
      s2n_of_canonicalText tg isString ((valIscan_iff isString).mp accepted)
    exact ⟨r, converted, canonical, back⟩
  · intro u r isString converted isNumber
    rw [valIscan_iff isString]
    constructor
    · exact canonicalText_of_s2n isString converted isNumber
    · intro canonical
      obtain ⟨r', converted', _, approx, _⟩ := s2n_of_canonicalText tg isString canonical
      rw [converted] at converted'
      rw [Except.ok.inj converted']
      exact approx

/-- The value one and a half, its text, and the string value of that text. -/
theorem canonical_numbers_agree_at_one_and_a_half :
    (∃ r, s2n ⟨false, false⟩ ⟨⟨false, false, true, false, false⟩, false, 0, 0, 0,
        [0x31, Ascii.dot, 0x35]⟩ = .ok r ∧
      r.u.SameNumber ⟨⟨true, true, false, false, false⟩, false, 0, 0, 1500, []⟩ ∧
      r.u.mvtype.numApprox = false) ∧
    valIscan ⟨⟨false, false, true, false, false⟩, false, 0, 0, 0,
      [0x31, Ascii.dot, 0x35]⟩ = true :=
  ⟨((canonical_numbers_agree ⟨false, false⟩).1
      ⟨⟨true, true, false, false, false⟩, false, 0, 0, 1500, []⟩
      (.inl ⟨rfl, rfl, by decide⟩)).2 _ ⟨rfl⟩ (by decide), by decide⟩

/-- At compile time `s2n` returns on an exponent that is too large, with the mark
clear although the string is not canonical: the literal `1E99`. -/
theorem s2n_overflow_unmarked_at_compile_time :
    ∃ (u : Mval) (r : S2n), u.IsString ∧ s2n ⟨true, false⟩ u = .ok r ∧
      ¬ (r.u.mvtype.numApprox = false ↔ valIscan u = true) :=
  ⟨⟨⟨false, false, true, false, false⟩, false, 0, 0, 0, [0x31, Ascii.upperE, 0x39, 0x39]⟩,
    ⟨⟨⟨false, false, true, false, false⟩, false, 0, 0, 100000000, [0x31, Ascii.upperE, 0x39, 0x39]⟩,
      [], ⟨true, false⟩⟩, ⟨rfl⟩, by decide, by decide⟩

end Ydb
