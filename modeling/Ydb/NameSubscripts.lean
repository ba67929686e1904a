import Ydb.NameComponents

/-!
# Reading subscripts

Numbers, whole components and lists of subscripts. A component that is dispatched is
one too many when it exceeds the limit: then the loop ends behind its first character,
or for a zero behind the separator too.
-/

namespace Ydb

open Lib

namespace NameParse

variable {utf8_mode : Bool} {subs_max : Nat} {ctx : NameContext}

/-! ## Numbers -/

theorem isDigit_ascii {ch : UInt8} (digit : isDigit ch = true) : ch < 0x80 := by
  have range := (isDigit_iff ch).mp digit
  rw [UInt8.lt_iff_toNat_lt]
  exact lt_of_le_of_lt range.2 (by decide)

theorem switch_digit (ctx : NameContext) {ch : UInt8} (digit : isDigit ch = true)
    (rest : List UInt8) (isrc : Nat) (instring : Bool) (point : Nat) {previous : UInt8}
    (signed : ¬ (previous = Ascii.minus ∧ ch = Ascii.zero)) :
    (at_ ctx .in_number (ch :: rest) isrc instring point previous).switch =
      some (at_ ctx .in_number (ch :: rest) isrc instring point ch) := by
  show (if isDigit ch = true then if previous = Ascii.minus ∧ ch = Ascii.zero then _ else _ else _) = _
  rw [if_pos digit, if_neg signed]
  rfl

theorem switch_dot (ctx : NameContext) (rest : List UInt8) (isrc : Nat) (instring : Bool)
    (previous : UInt8) :
    (at_ ctx .in_number (Ascii.dot :: rest) isrc instring 0 previous).switch =
      some (at_ ctx .in_number (Ascii.dot :: rest) isrc instring 1 Ascii.dot) := rfl

section Number

variable (few : ctx.subs_count ≤ subs_max)

include few

/-- The parser behind a number. -/
theorem verdict_numeral {w rest : List UInt8} {sep : UInt8} (sane : ctx.Sane)
    (separates : ctx.Separates sep) (isrc : Nat) (instring : Bool) (point : Nat) (previous : UInt8)
    (numeral : Numeral point previous w) :
    Ended utf8_mode subs_max (at_ ctx .in_number (w ++ sep :: rest) isrc instring point previous) ctx
      false (isrc + w.length) sep rest := by
  induction w generalizing isrc point previous with
  | nil =>
    obtain ⟨ascii, notDigit, notDot, _⟩ := separates.plain sane
    have closed := close_eq separates (rfl : sep :: rest = sep :: rest) .in_number isrc instring point
      previous
    have turn : (at_ ctx .in_number (sep :: rest) isrc instring point previous).switch =
        some (at_ (ctx.noted false isrc) (ctx.after sep) (sep :: rest) isrc instring point sep) := by
      show (if isDigit sep = true then _ else if sep = Ascii.dot then _ else
        if 0 < point ∧ previous = Ascii.zero then _ else
        (at_ ctx .in_number (sep :: rest) isrc instring point previous).close.bind _) = _
      rw [notDigit, if_neg Bool.false_ne_true, if_neg notDot, if_neg numeral, closed]
      show some { noteStop _ with previous := sep } = _
      rw [noteStop_at]
      rfl
    exact ⟨instring, point, sep, verdict_turn (by simp [at_]) few turn rfl ascii⟩
  | cons ch w ih =>
    have position : isrc + 1 + w.length = isrc + (ch :: w).length := by
      rw [List.length_cons]
      omega
    rcases numeral with ⟨digit, signed, more⟩ | ⟨rfl, first, more⟩
    · have turn := switch_digit ctx digit (w ++ sep :: rest) isrc instring point signed
      have ended := ih (isrc + 1) point ch more
      rw [position] at ended
      exact ended.of_eq (verdict_turn (by simp [at_]) few turn rfl (isDigit_ascii digit))
    · have turn := switch_dot ctx (w ++ sep :: rest) isrc instring previous
      have ended := ih (isrc + 1) 1 Ascii.dot more
      rw [position] at ended
      rw [first]
      exact ended.of_eq (verdict_turn (by simp [at_]) few turn rfl (by decide))

/-- A text inside a number is refused unless the rest of a number stands in front, and a
separator behind it. -/
theorem numeral_cases (text : List UInt8) (isrc : Nat) (instring : Bool) (point : Nat)
    (previous : UInt8) :
    (at_ ctx .in_number text isrc instring point previous).verdict utf8_mode subs_max = none ∨
    ∃ w sep rest, Numeral point previous w ∧ ctx.Separates sep ∧ text = w ++ sep :: rest := by
  induction text generalizing isrc point previous with
  | nil => exact .inl (verdict_end rfl)
  | cons ch text ih =>
    have refuses : (at_ ctx .in_number (ch :: text) isrc instring point previous).inNumber = none →
        (at_ ctx .in_number (ch :: text) isrc instring point previous).verdict utf8_mode subs_max =
          none := fun refused => verdict_refused (List.cons_ne_nil ch text) few refused
    by_cases digit : isDigit ch = true
    · by_cases signed : previous = Ascii.minus ∧ ch = Ascii.zero
      · refine .inl (refuses ?_)
        show (if isDigit ch = true then if previous = Ascii.minus ∧ ch = Ascii.zero then _ else _
          else _) = none
        rw [if_pos digit, if_pos signed]
      · have turn := switch_digit ctx digit text isrc instring point signed
        rw [verdict_turn (by simp [at_]) few turn rfl (isDigit_ascii digit)]
        refine (ih (isrc + 1) point ch).imp_right ?_
        rintro ⟨w, sep, rest, numeral, separates, rfl⟩
        exact ⟨ch :: w, sep, rest, .inl ⟨digit, signed, numeral⟩, separates, rfl⟩
    · by_cases dot : ch = Ascii.dot
      · subst dot
        by_cases first : point = 0
        · subst first
          have turn := switch_dot ctx text isrc instring previous
          rw [verdict_turn (by simp [at_]) few turn rfl (by decide)]
          refine (ih (isrc + 1) 1 Ascii.dot).imp_right ?_
          rintro ⟨w, sep, rest, numeral, separates, rfl⟩
          exact ⟨Ascii.dot :: w, sep, rest, .inr ⟨rfl, rfl, numeral⟩, separates, rfl⟩
        · refine .inl (refuses ?_)
          show (if isDigit Ascii.dot = true then _ else if Ascii.dot = Ascii.dot then
            if 1 < point + 1 then _ else _ else _) = none
          rw [if_neg digit, if_pos rfl, if_pos (by omega)]
      · by_cases trailing : 0 < point ∧ previous = Ascii.zero
        · refine .inl (refuses ?_)
          show (if isDigit ch = true then _ else if ch = Ascii.dot then _ else
            if 0 < point ∧ previous = Ascii.zero then _ else _) = none
          rw [if_neg digit, if_neg dot, if_pos trailing]
        · by_cases separates : ctx.Separates ch
          · exact .inr ⟨[], ch, text, trailing, separates, rfl⟩
          · refine .inl (refuses ?_)
            have refused := close_refused separates (rfl : ch :: text = ch :: text) .in_number isrc
              instring point previous
            show (if isDigit ch = true then _ else if ch = Ascii.dot then _ else
              if 0 < point ∧ previous = Ascii.zero then _ else
              (at_ ctx .in_number (ch :: text) isrc instring point previous).close.bind _) = none
            rw [if_neg digit, if_neg dot, if_neg trailing, refused]
            rfl

end Number

theorem numeral_one_iff {previous : UInt8} (unsigned : previous ≠ Ascii.minus) (w : List UInt8) :
    Numeral 1 previous w ↔ AllDigits w ∧ (previous :: w).getLast? ≠ some Ascii.zero := by
  induction w generalizing previous with
  | nil => simp [Numeral, AllDigits]
  | cons ch w ih =>
    have digitUnsigned : isDigit ch = true → ch ≠ Ascii.minus := by
      rintro digit rfl
      exact absurd digit (by decide)
    rw [List.getLast?_cons_cons]
    constructor
    · rintro (⟨digit, _, more⟩ | ⟨_, impossible, _⟩)
      · obtain ⟨all, last⟩ := (ih (digitUnsigned digit)).mp more
        exact ⟨List.forall_mem_cons.mpr ⟨digit, all⟩, last⟩
      · cases impossible
    · rintro ⟨all, last⟩
      obtain ⟨digit, all⟩ := List.forall_mem_cons.mp all
      exact .inl ⟨digit, fun signed => unsigned signed.1,
        (ih (digitUnsigned digit)).mpr ⟨all, last⟩⟩

/-- A fraction with its point. -/
def Fraction (fraction : List UInt8) : Prop :=
  fraction = [] ∨ ∃ digits, fraction = Ascii.dot :: digits ∧ AllDigits digits ∧
    digits.getLast? ≠ some Ascii.zero

theorem numeral_dot_iff (digits : List UInt8) :
    Numeral 1 Ascii.dot digits ↔ AllDigits digits ∧ digits.getLast? ≠ some Ascii.zero := by
  rw [numeral_one_iff (by decide)]
  cases digits with
  | nil => exact ⟨fun both => ⟨both.1, by simp⟩, fun both => ⟨both.1, by decide⟩⟩
  | cons ch digits => rw [List.getLast?_cons_cons]

theorem numeral_zero_iff {previous : UInt8} (unsigned : previous ≠ Ascii.minus) (w : List UInt8) :
    Numeral 0 previous w ↔ ∃ whole fraction, w = whole ++ fraction ∧ AllDigits whole ∧
      Fraction fraction := by
  induction w generalizing previous with
  | nil =>
    constructor
    · intro _
      exact ⟨[], [], rfl, fun _ member => absurd member List.not_mem_nil, .inl rfl⟩
    · intro _
      exact fun both => absurd both.1 (by decide)
  | cons ch w ih =>
    have digitUnsigned : isDigit ch = true → ch ≠ Ascii.minus := by
      rintro digit rfl
      exact absurd digit (by decide)
    constructor
    · rintro (⟨digit, _, more⟩ | ⟨rfl, _, more⟩)
      · obtain ⟨whole, fraction, rfl, all, ends⟩ := (ih (digitUnsigned digit)).mp more
        exact ⟨ch :: whole, fraction, rfl, List.forall_mem_cons.mpr ⟨digit, all⟩, ends⟩
      · exact ⟨[], Ascii.dot :: w, rfl, fun _ member => absurd member List.not_mem_nil,
          .inr ⟨w, rfl, (numeral_dot_iff w).mp more⟩⟩
    · rintro ⟨whole, fraction, split, all, ends⟩
      match whole with
      | [] =>
        rcases ends with rfl | ⟨digits, rfl, last⟩
        · cases split
        · cases split
          exact .inr ⟨rfl, rfl, (numeral_dot_iff w).mpr last⟩
      | first :: whole =>
        cases split
        obtain ⟨digit, all⟩ := List.forall_mem_cons.mp all
        exact .inl ⟨digit, fun signed => unsigned signed.1,
          (ih (digitUnsigned digit)).mpr ⟨whole, fraction, rfl, all, ends⟩⟩

theorem numeral_minus_iff (w : List UInt8) :
    Numeral 0 Ascii.minus w ↔ Numeral 0 Ascii.dot w ∧ w.head? ≠ some Ascii.zero := by
  cases w with
  | nil => simp [Numeral]
  | cons ch w =>
    have notDot : Ascii.dot ≠ Ascii.zero := by decide
    constructor
    · rintro (⟨digit, signed, more⟩ | ⟨rfl, first, more⟩)
      · exact ⟨.inl ⟨digit, fun impossible => absurd impossible.1 (by decide), more⟩,
          fun zero => signed ⟨rfl, Option.some.inj zero⟩⟩
      · exact ⟨.inr ⟨rfl, first, more⟩, fun zero => notDot (Option.some.inj zero)⟩
    · rintro ⟨⟨digit, _, more⟩ | more, nonzero⟩
      · exact .inl ⟨digit, fun signed => nonzero (by rw [signed.2]; rfl), more⟩
      · exact .inr more

/-- What the parser takes for a number at its first character. -/
def Started (w : List UInt8) : Prop :=
  ∃ ch rest, w = ch :: rest ∧ ch ≠ Ascii.zero ∧
    (ch = Ascii.minus ∨ ch = Ascii.dot ∨ isDigit ch = true) ∧
    Numeral (if ch = Ascii.dot then 1 else 0) ch rest

theorem head_of_fraction {whole fraction : List UInt8} (ends : Fraction fraction) :
    (whole ++ fraction).head? ≠ some Ascii.zero ↔ whole.head? ≠ some Ascii.zero := by
  cases whole with
  | cons ch whole => rfl
  | nil =>
    rcases ends with rfl | ⟨digits, rfl, _⟩
    · rfl
    · exact ⟨fun _ => by simp, fun _ zero => absurd (Option.some.inj zero) (by decide)⟩

theorem passesNumber_iff {w : List UInt8} (nonzero : w ≠ [Ascii.zero]) :
    PassesNumber w ↔ Started w := by
  have notMinus : Ascii.dot ≠ Ascii.minus := by decide
  constructor
  · rintro (zero | ⟨sign, whole, fraction, rfl, ⟨signs, all, head, ends⟩, some⟩)
    · exact absurd zero nonzero
    rcases signs with rfl | rfl
    · match whole with
      | [] =>
        rcases ends with rfl | ⟨digits, rfl, last⟩
        · exact absurd rfl some
        · exact ⟨Ascii.dot, digits, rfl, by decide, .inr (.inl rfl), (numeral_dot_iff digits).mpr last⟩
      | ch :: whole =>
        obtain ⟨digit, all⟩ := List.forall_mem_cons.mp all
        have notDot : ch ≠ Ascii.dot := by
          rintro rfl
          exact absurd digit (by decide)
        have unsigned : ch ≠ Ascii.minus := by
          rintro rfl
          exact absurd digit (by decide)
        refine ⟨ch, whole ++ fraction, rfl, fun zero => head (by rw [zero]; rfl), .inr (.inr digit), ?_⟩
        rw [if_neg notDot]
        exact (numeral_zero_iff unsigned _).mpr ⟨whole, fraction, rfl, all, ends⟩
    · refine ⟨Ascii.minus, whole ++ fraction, rfl, by decide, .inl rfl, ?_⟩
      rw [if_neg (by decide)]
      exact (numeral_minus_iff _).mpr
        ⟨(numeral_zero_iff notMinus _).mpr ⟨whole, fraction, rfl, all, ends⟩,
          (head_of_fraction ends).mpr head⟩
  · rintro ⟨ch, rest, rfl, notZero, kind, numeral⟩
    refine .inr ?_
    by_cases minus : ch = Ascii.minus
    · subst minus
      rw [if_neg (by decide)] at numeral
      obtain ⟨numeral, head⟩ := (numeral_minus_iff rest).mp numeral
      obtain ⟨whole, fraction, rfl, all, ends⟩ := (numeral_zero_iff notMinus rest).mp numeral
      exact ⟨[Ascii.minus], whole, fraction, rfl,
        ⟨.inr rfl, all, (head_of_fraction ends).mp head, ends⟩, List.cons_ne_nil _ _⟩
    by_cases dot : ch = Ascii.dot
    · subst dot
      rw [if_pos rfl] at numeral
      exact ⟨[], [], Ascii.dot :: rest, rfl,
        ⟨.inl rfl, fun _ member => absurd member List.not_mem_nil, by simp,
          .inr ⟨rest, rfl, (numeral_dot_iff rest).mp numeral⟩⟩, List.cons_ne_nil _ _⟩
    · have digit := (kind.resolve_left minus).resolve_left dot
      rw [if_neg dot] at numeral
      obtain ⟨whole, fraction, rfl, all, ends⟩ := (numeral_zero_iff minus rest).mp numeral
      exact ⟨[], ch :: whole, fraction, rfl,
        ⟨.inl rfl, List.forall_mem_cons.mpr ⟨digit, all⟩,
          fun zero => notZero (Option.some.inj zero), ends⟩, List.cons_ne_nil _ _⟩

end NameParse

/-! ## Components -/

namespace NameContext

/-- A component counted and its start noted, except of a second environment
component. -/
def opened (ctx : NameContext) (isrc : Nat) : NameContext :=
  let counted :=
    if ctx.term = Ascii.close_paren then { ctx with subs_count := ctx.subs_count + 1 }
    else { ctx with envpart := ctx.envpart + 1 }
  if 0 < counted.subs_count ∨ counted.envpart = 1 then
    { counted with start := counted.start ++ [isrc] }
  else counted

theorem opened_term (ctx : NameContext) (isrc : Nat) : (ctx.opened isrc).term = ctx.term := by
  unfold opened
  dsimp only
  split <;> split <;> rfl

theorem Sane.opened {ctx : NameContext} (sane : ctx.Sane) (isrc : Nat) : (ctx.opened isrc).Sane :=
  ⟨by rw [opened_term]; exact sane.term⟩

theorem separates_opened {ctx : NameContext} {isrc : Nat} {sep : UInt8} :
    (ctx.opened isrc).Separates sep ↔ ctx.Separates sep := by
  unfold Separates
  rw [opened_term]

end NameContext

namespace NameParse

variable {utf8_mode : Bool} {subs_max : Nat} {ctx : NameContext}

theorem openComponent_at (ctx : NameContext) (text : List UInt8) (isrc : Nat) (instring : Bool)
    (point : Nat) (previous : UInt8) :
    (at_ ctx .dispatch_for_starting_component text isrc instring point previous).openComponent =
      at_ (ctx.opened isrc) .dispatch_for_starting_component text isrc false 0 previous := by
  unfold openComponent NameContext.opened
  by_cases subscript : ctx.term = Ascii.close_paren
  · simp only [at_, subscript, if_true]
    by_cases notes : 0 < ctx.subs_count + 1 ∨ ctx.envpart = 1
    · simp only [notes, if_true]
    · simp only [notes, if_false]
  · simp only [at_, subscript, if_false]
    by_cases notes : 0 < ctx.subs_count ∨ ctx.envpart + 1 = 1
    · simp only [notes, if_true]
    · simp only [notes, if_false]

theorem switch_dispatch_at (room : ctx.envpart ≤ 1) (text : List UInt8) (isrc : Nat)
    (instring : Bool) (point : Nat) (previous : UInt8) :
    (at_ ctx .dispatch_for_starting_component text isrc instring point previous).switch =
      (at_ (ctx.opened isrc) .dispatch_for_starting_component text isrc false 0
        previous).componentKind := by
  show (if 1 < ctx.envpart then none else (at_ ctx .dispatch_for_starting_component text isrc instring
    point previous).openComponent.componentKind) = _
  rw [if_neg (by omega), openComponent_at]

/-- The first character of a number. -/
theorem componentKind_number {ch : UInt8} (notZero : ch ≠ Ascii.zero)
    (kind : ch = Ascii.minus ∨ ch = Ascii.dot ∨ isDigit ch = true) (rest : List UInt8) (isrc : Nat)
    (previous : UInt8) :
    (at_ ctx .dispatch_for_starting_component (ch :: rest) isrc false 0 previous).componentKind =
      some (at_ ctx .in_number (ch :: rest) isrc false (if ch = Ascii.dot then 1 else 0) ch) := by
  have others : ch ≠ Ascii.quote ∧ ch ≠ Ascii.dollar := by
    constructor
    · rintro rfl
      exact absurd kind (by decide)
    · rintro rfl
      exact absurd kind (by decide)
  show (if ch = Ascii.quote then _ else if ch = Ascii.dollar then _ else if ch = Ascii.zero then _ else
    if ch = Ascii.minus ∨ ch = Ascii.dot ∨ isDigit ch then _ else _) = _
  rw [if_neg others.1, if_neg others.2, if_neg notZero, if_pos kind]
  rfl

/-- A zero with its separator. -/
theorem componentKind_zero {sep : UInt8} (sane : ctx.Sane) (separates : ctx.Separates sep)
    (rest : List UInt8) (isrc : Nat) (previous : UInt8) :
    (at_ ctx .dispatch_for_starting_component (Ascii.zero :: sep :: rest) isrc false 0
      previous).componentKind =
      some (at_ (ctx.noted true (isrc + 1)) (ctx.after sep) (sep :: rest) (isrc + 1) false 0
        previous) := by
  have comma : Ascii.comma ≠ ctx.term := by
    rcases sane.term with term | term | term <;> rw [term] <;> decide
  show (if sep = ctx.term then _ else if sep = Ascii.comma then _ else none) = _
  rcases separates with rfl | rfl
  · rw [if_neg comma, if_pos rfl, NameContext.after, if_pos rfl]
    rfl
  · rw [if_pos rfl, NameContext.after, if_neg comma.symm]
    rfl

section Component

variable (few : ctx.subs_count ≤ subs_max) (room : ctx.envpart ≤ 1) (sane : ctx.Sane)

include few room sane

/-- The parser behind a component. -/
theorem verdict_component {always : Bool} {w : List UInt8} {sep : UInt8}
    (component : PassesComponent utf8_mode always w) (separates : ctx.Separates sep)
    (rest : List UInt8) (isrc : Nat) (allowed : (ctx.opened isrc).subs_count ≤ subs_max) (instring : Bool) (point : Nat)
    (previous : UInt8) :
    Ended utf8_mode subs_max
      (at_ ctx .dispatch_for_starting_component (w ++ sep :: rest) isrc instring point previous)
      (ctx.opened isrc) always (isrc + w.length) sep rest := by
  have separates' : (ctx.opened isrc).Separates sep := NameContext.separates_opened.mpr separates
  cases component with
  | zero =>
    have turn := (switch_dispatch_at room (Ascii.zero :: sep :: rest) isrc instring point previous).trans
      (componentKind_zero (sane.opened isrc) separates' rest isrc previous)
    exact ⟨false, 0, previous,
      verdict_turn (by simp [at_]) few turn rfl (separates.plain sane).1⟩
  | number number nonzero =>
    obtain ⟨ch, tail, rfl, notZero, kind, numeral⟩ := (passesNumber_iff nonzero).mp number
    have ascii : ch < 0x80 := by
      rcases kind with rfl | rfl | digit
      · decide
      · decide
      · exact isDigit_ascii digit
    have turn := (switch_dispatch_at room (ch :: (tail ++ sep :: rest)) isrc instring point
      previous).trans (componentKind_number notZero kind _ isrc previous)
    apply Ended.of_eq _ (verdict_turn (List.cons_ne_nil _ _) few turn rfl ascii)
    rw [List.length_cons, Nat.add_comm tail.length, ← Nat.add_assoc]
    exact verdict_numeral allowed (sane.opened isrc) separates' (isrc + 1) false _ ch numeral
  | @expression starts _ _ expr =>
    obtain ⟨body, rfl⟩ := expr.opened
    apply (verdict_expr allowed expr (sane.opened isrc) separates' isrc starts 0 previous id).of_eq
    cases starts with
    | true =>
      have turn := switch_dispatch_at room (Ascii.quote :: (body ++ sep :: rest)) isrc instring point
        previous
      exact verdict_turn (by simp [at_]) few turn rfl (by decide)
    | false =>
      have turn := switch_dispatch_at room (Ascii.dollar :: (body ++ sep :: rest)) isrc instring point
        previous
      exact verdict_turn (by simp [at_]) few turn rfl (by decide)

variable (utf8_mode) in
/-- A text where a component should start is refused unless a component stands in front
and a separator behind it. The exception is a zero at the end of a list that is too long. -/
theorem component_cases (text : List UInt8) (isrc : Nat) (instring : Bool) (point : Nat)
    (previous : UInt8) :
    (at_ ctx .dispatch_for_starting_component text isrc instring point previous).verdict utf8_mode
      subs_max = none ∨
    ((ctx.opened isrc).subs_count ≤ subs_max ∧ ∃ always w sep rest,
      PassesComponent utf8_mode always w ∧ ctx.Separates sep ∧ text = w ++ sep :: rest) ∨
    (¬ (ctx.opened isrc).subs_count ≤ subs_max ∧ ∃ rest,
      text = Ascii.zero :: Ascii.close_paren :: rest) := by
  match text with
  | [] => exact .inl (verdict_end rfl)
  | ch :: rest =>
    have dispatched := switch_dispatch_at room (ch :: rest) isrc instring point previous
    have refuses : (at_ (ctx.opened isrc) .dispatch_for_starting_component (ch :: rest) isrc false 0
        previous).componentKind = none →
        (at_ ctx .dispatch_for_starting_component (ch :: rest) isrc instring point previous).verdict
          utf8_mode subs_max = none :=
      fun refused => verdict_refused (List.cons_ne_nil ch rest) few (dispatched.trans refused)
    by_cases starts : ∃ starts, ch = opening starts
    · obtain ⟨starts, rfl⟩ := starts
      have turned : (at_ ctx .dispatch_for_starting_component (opening starts :: rest) isrc instring
          point previous).verdict utf8_mode subs_max =
          (at_ (ctx.opened isrc) (openState starts) rest (isrc + 1) starts 0 previous).verdict utf8_mode
            subs_max := by
        cases starts with
        | true => exact verdict_turn (List.cons_ne_nil _ _) few dispatched rfl (by decide)
        | false => exact verdict_turn (List.cons_ne_nil _ _) few dispatched rfl (by decide)
      rw [turned]
      by_cases allowed : (ctx.opened isrc).subs_count ≤ subs_max
      · refine (expr_cases allowed starts rest (isrc + 1) starts 0 previous
          id).imp_right fun found => .inl ⟨allowed, ?_⟩
        obtain ⟨ends, w, sep, tail, expr, separates, rfl⟩ := found
        exact ⟨ends, opening starts :: w, sep, tail, .expression expr,
          NameContext.separates_opened.mp separates, rfl⟩
      · refine .inl ((verdict_over allowed).trans ?_)
        cases starts <;> rfl
    by_cases zero : ch = Ascii.zero
    · subst zero
      match rest with
      | [] => exact .inl (refuses rfl)
      | sep :: behind =>
        by_cases separates : (ctx.opened isrc).Separates sep
        · by_cases allowed : (ctx.opened isrc).subs_count ≤ subs_max
          · exact .inr (.inl ⟨allowed, true, [Ascii.zero], sep, behind, .zero,
              NameContext.separates_opened.mp separates, rfl⟩)
          · have turn := dispatched.trans
              (componentKind_zero (sane.opened isrc) separates behind isrc previous)
            rw [verdict_turn (List.cons_ne_nil _ _) few turn rfl (separates.plain (sane.opened isrc)).1]
            by_cases last : sep = Ascii.close_paren
            · subst last
              exact .inr (.inr ⟨allowed, behind, rfl⟩)
            · refine .inl ((verdict_over allowed).trans ?_)
              rcases separates with rfl | rfl
              · rfl
              · have comma : (ctx.opened isrc).term ≠ Ascii.comma := by
                  rcases (sane.opened isrc).term with term | term | term <;> rw [term] <;> decide
                unfold NameContext.after
                rw [if_neg comma, if_neg last]
                rfl
        · refine .inl (refuses ?_)
          show (if sep = (ctx.opened isrc).term then _ else if sep = Ascii.comma then _ else none) = none
          rw [if_neg fun term => separates (.inr term), if_neg fun comma => separates (.inl comma)]
    by_cases kind : ch = Ascii.minus ∨ ch = Ascii.dot ∨ isDigit ch = true
    · have ascii : ch < 0x80 := by
        rcases kind with rfl | rfl | digit
        · decide
        · decide
        · exact isDigit_ascii digit
      have turn := dispatched.trans (componentKind_number zero kind rest isrc previous)
      rw [verdict_turn (List.cons_ne_nil _ _) few turn rfl ascii]
      by_cases allowed : (ctx.opened isrc).subs_count ≤ subs_max
      · refine (numeral_cases allowed rest (isrc + 1) false _ ch).imp_right
          fun found => .inl ⟨allowed, ?_⟩
        obtain ⟨w, sep, tail, numeral, separates, rfl⟩ := found
        have nonzero : ch :: w ≠ [Ascii.zero] := fun same => zero (List.cons.inj same).1
        exact ⟨false, ch :: w, sep, tail,
          .number ((passesNumber_iff nonzero).mpr ⟨ch, w, rfl, zero, kind, numeral⟩) nonzero,
          NameContext.separates_opened.mp separates, rfl⟩
      · exact .inl ((verdict_over allowed).trans rfl)
    · refine .inl (refuses ?_)
      show (if ch = Ascii.quote then _ else if ch = Ascii.dollar then _ else if ch = Ascii.zero then _
        else if ch = Ascii.minus ∨ ch = Ascii.dot ∨ isDigit ch then _ else _) = none
      rw [if_neg fun quote : ch = Ascii.quote => starts ⟨true, quote⟩,
        if_neg fun dollar : ch = Ascii.dollar => starts ⟨false, dollar⟩, if_neg zero, if_neg kind]

end Component

end NameParse

end Ydb
