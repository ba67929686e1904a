import Ydb.NameGrammar

/-!
# Reading the components of a name

The parser is followed through quoted strings, calls and numbers, up to the separator
behind each. Conversely, a text that it does not refuse has such a component in front.
-/

namespace Ydb

open Lib

namespace NameContext

/-- The terminators of lists. -/
structure Sane (ctx : NameContext) : Prop where
  term : ctx.term = Ascii.close_paren ∨ ctx.term = Ascii.bar ∨ ctx.term = Ascii.close_bracket

/-- A comma or the terminator. -/
def Separates (ctx : NameContext) (sep : UInt8) : Prop := sep = Ascii.comma ∨ sep = ctx.term

/-- The state behind a component. -/
def after (ctx : NameContext) (sep : UInt8) : NameState :=
  if sep = Ascii.comma then .dispatch_for_starting_component
  else if ctx.term = Ascii.close_paren then .end_of_processing
  else .expect_first_letter_of_name

/-- The end of a component noted, except of a second environment component whose end is
not noted in any case. -/
def noted (ctx : NameContext) (always : Bool) (isrc : Nat) : NameContext :=
  if always = true ∨ 0 < ctx.subs_count ∨ ctx.envpart = 1 then { ctx with stop := ctx.stop ++ [isrc] }
  else ctx

theorem Separates.plain {ctx : NameContext} {sep : UInt8} (separates : ctx.Separates sep)
    (sane : ctx.Sane) : sep < 0x80 ∧ isDigit sep = false ∧ sep ≠ Ascii.dot ∧ sep ≠ Ascii.quote ∧
      sep ≠ Ascii.underscore ∧ sep ≠ Ascii.zero := by
  rcases separates with rfl | rfl
  · decide
  · rcases sane.term with term | term | term <;> rw [term] <;> decide

end NameContext

namespace NameParse

variable {utf8_mode : Bool} {subs_max : Nat} {ctx : NameContext}

theorem advance_eq {p : NameParse} {ch : UInt8} {rest : List UInt8} (text : p.cpt = ch :: rest) :
    p.advance utf8_mode = { p with
      cpt := rest.drop (followers utf8_mode ch)
      isrc := p.isrc + 1 + followers utf8_mode ch } := by
  have letter : p.letter = ch := by rw [NameParse.letter, text]; rfl
  unfold advance followers
  rw [letter, text]
  dsimp only
  split
  · rfl
  · rw [Nat.add_comm 1, List.drop_succ_cons, Nat.add_assoc, Nat.add_comm 1]

/-- A turn that ends on an ASCII character. -/
theorem verdict_turn {p q : NameParse} {ch : UInt8} {rest : List UInt8} (more : p.cpt ≠ [])
    (few : p.subs_count ≤ subs_max) (turn : p.switch = some q) (text : q.cpt = ch :: rest)
    (ascii : ch < 0x80) :
    p.verdict utf8_mode subs_max =
      NameParse.verdict utf8_mode subs_max { q with cpt := rest, isrc := q.isrc + 1 } := by
  rw [verdict_step more few, turn]
  show (q.advance utf8_mode).verdict utf8_mode subs_max = _
  have alone : followers utf8_mode ch = 0 := if_pos (.inr ascii)
  rw [advance_eq text, alone]
  rfl

theorem verdict_refused {p : NameParse} (more : p.cpt ≠ []) (few : p.subs_count ≤ subs_max)
    (turn : p.switch = none) : p.verdict utf8_mode subs_max = none := by
  rw [verdict_step more few, turn]
  rfl

/-- The component ends at position `isrc`, with the separator there. -/
def Ended (utf8_mode : Bool) (subs_max : Nat) (p : NameParse) (ctx : NameContext) (always : Bool)
    (isrc : Nat) (sep : UInt8) (rest : List UInt8) : Prop :=
  ∃ instring point previous, p.verdict utf8_mode subs_max =
    (at_ (ctx.noted always isrc) (ctx.after sep) rest (isrc + 1) instring point previous).verdict
      utf8_mode subs_max

theorem Ended.of_eq {p q : NameParse} {always : Bool} {isrc : Nat} {sep : UInt8} {rest : List UInt8}
    (ended : Ended utf8_mode subs_max q ctx always isrc sep rest)
    (same : p.verdict utf8_mode subs_max = q.verdict utf8_mode subs_max) :
    Ended utf8_mode subs_max p ctx always isrc sep rest := by
  obtain ⟨instring, point, previous, behind⟩ := ended
  exact ⟨instring, point, previous, same.trans behind⟩

theorem close_eq {cpt rest : List UInt8} {sep : UInt8} (separates : ctx.Separates sep)
    (text : cpt = sep :: rest) (state : NameState) (isrc : Nat) (instring : Bool) (point : Nat)
    (previous : UInt8) :
    (at_ ctx state cpt isrc instring point previous).close =
      some (at_ ctx (ctx.after sep) cpt isrc instring point previous) := by
  subst text
  unfold close NameContext.after
  show (if sep = Ascii.comma then _ else if sep = ctx.term then _ else _) = _
  by_cases comma : sep = Ascii.comma
  · rw [if_pos comma, if_pos comma]
    rfl
  · rw [if_neg comma, if_neg comma, if_pos (separates.resolve_left comma)]
    rfl

theorem close_refused {cpt rest : List UInt8} {ch : UInt8} (other : ¬ ctx.Separates ch)
    (text : cpt = ch :: rest) (state : NameState) (isrc : Nat) (instring : Bool) (point : Nat)
    (previous : UInt8) : (at_ ctx state cpt isrc instring point previous).close = none := by
  subst text
  unfold close
  show (if ch = Ascii.comma then _ else if ch = ctx.term then _ else _) = _
  rw [if_neg fun comma => other (.inl comma), if_neg fun term => other (.inr term)]

theorem noteStop_at (ctx : NameContext) (state : NameState) (cpt : List UInt8) (isrc : Nat)
    (instring : Bool) (point : Nat) (previous : UInt8) :
    (at_ ctx state cpt isrc instring point previous).noteStop =
      at_ (ctx.noted false isrc) state cpt isrc instring point previous := by
  unfold noteStop NameContext.noted
  by_cases notes : 0 < ctx.subs_count ∨ ctx.envpart = 1
  · simp only [at_, notes, or_true, if_true]
  · simp only [at_, notes, Bool.false_eq_true, or_false, if_false]

/-! ## Quoted strings -/

section Quoted

variable (few : ctx.subs_count ≤ subs_max)

include few

/-- A quote inside a string with more text behind it. -/
theorem verdict_quote {next : UInt8} (notJoined : next ≠ Ascii.underscore) (rest : List UInt8)
    (isrc point : Nat) (previous : UInt8) :
    (at_ ctx .in_string (Ascii.quote :: next :: rest) isrc true point previous).verdict utf8_mode
      subs_max =
      (at_ ctx .in_string (next :: rest) (isrc + 1) false point previous).verdict utf8_mode
        subs_max := by
  have turn : (at_ ctx .in_string (Ascii.quote :: next :: rest) isrc true point previous).switch =
      some (at_ ctx .in_string (Ascii.quote :: next :: rest) isrc false point previous) := by
    simp [switch, at_, inString, NameParse.letter, notJoined]
  exact verdict_turn (by simp [at_]) few turn rfl (by decide)

/-- The second of two quotes. -/
theorem verdict_doubled (rest : List UInt8) (isrc point : Nat) (previous : UInt8) :
    (at_ ctx .in_string (Ascii.quote :: Ascii.quote :: rest) isrc true point previous).verdict
      utf8_mode subs_max =
      (at_ ctx .in_string rest (isrc + 2) true point previous).verdict utf8_mode subs_max := by
  rw [verdict_quote few (by decide)]
  have turn : (at_ ctx .in_string (Ascii.quote :: rest) (isrc + 1) false point previous).switch =
      some (at_ ctx .in_string (Ascii.quote :: rest) (isrc + 1) true point previous) := by
    simp [switch, at_, inString, NameParse.letter]
  exact verdict_turn (by simp [at_]) few turn rfl (by decide)

/-- Any other character of a string, with the bytes that belong to it. -/
theorem verdict_char {ch : UInt8} (plain : ch ≠ Ascii.quote) (rest : List UInt8)
    (isrc point : Nat) (previous : UInt8) :
    (at_ ctx .in_string (ch :: rest) isrc true point previous).verdict utf8_mode subs_max =
      (at_ ctx .in_string (rest.drop (followers utf8_mode ch)) (isrc + 1 + followers utf8_mode ch)
        true point previous).verdict utf8_mode subs_max := by
  have turn : (at_ ctx .in_string (ch :: rest) isrc true point previous).switch =
      some (at_ ctx .in_string (ch :: rest) isrc true point previous) := by
    simp [switch, at_, inString, NameParse.letter, plain]
  rw [verdict_step (by simp [at_]) few, turn]
  exact congrArg (NameParse.verdict utf8_mode subs_max) (advance_eq rfl)

/-- A string joined to a call. -/
theorem verdict_joined (rest : List UInt8) (isrc point : Nat) (previous : UInt8) :
    (at_ ctx .in_string (Ascii.quote :: Ascii.underscore :: Ascii.dollar :: rest) isrc true point
      previous).verdict utf8_mode subs_max =
      (at_ ctx .in_char_func rest (isrc + 3) false point previous).verdict utf8_mode subs_max := by
  have turn : (at_ ctx .in_string (Ascii.quote :: Ascii.underscore :: Ascii.dollar :: rest) isrc true
      point previous).switch =
      some (at_ ctx .in_char_func (Ascii.dollar :: rest) (isrc + 2) false point previous) := by
    simp [switch, at_, inString, NameParse.letter, next]
  exact verdict_turn (by simp [at_]) few turn rfl (by decide)

/-- The separator behind a closing quote. -/
theorem verdict_closed {sep : UInt8} (sane : ctx.Sane) (separates : ctx.Separates sep)
    (rest : List UInt8) (isrc point : Nat) (previous : UInt8) :
    Ended utf8_mode subs_max (at_ ctx .in_string (sep :: rest) isrc false point previous) ctx false
      isrc sep rest := by
  obtain ⟨ascii, _, _, notQuote, _⟩ := separates.plain sane
  have closed := close_eq separates (rfl : sep :: rest = sep :: rest) .in_string isrc false point
    previous
  have turn : (at_ ctx .in_string (sep :: rest) isrc false point previous).switch =
      some (at_ (ctx.noted false isrc) (ctx.after sep) (sep :: rest) isrc false point previous) := by
    show (at_ ctx .in_string (sep :: rest) isrc false point previous).inString = _
    unfold inString
    rw [if_neg (show ¬ NameParse.letter (at_ ctx .in_string (sep :: rest) isrc false point previous) =
      Ascii.quote from notQuote), if_neg (show ¬ NameParse.instring (at_ ctx .in_string (sep :: rest)
        isrc false point previous) = true from Bool.false_ne_true), closed]
    exact congrArg some (noteStop_at ..)
  exact ⟨false, point, previous, verdict_turn (by simp [at_]) few turn rfl ascii⟩

/-- The parser behind a quoted string: at a separator, or at a call that is joined to
the string. -/
theorem verdict_quoted {w : List UInt8} (body : NameQuoted utf8_mode w) (isrc point : Nat)
    (previous : UInt8) :
    (∀ sep rest, ctx.Sane → ctx.Separates sep → Ended utf8_mode subs_max
      (at_ ctx .in_string (w ++ sep :: rest) isrc true point previous) ctx false (isrc + w.length)
      sep rest) ∧
    ∀ rest, (at_ ctx .in_string (w ++ Ascii.underscore :: Ascii.dollar :: rest) isrc true point
      previous).verdict utf8_mode subs_max =
      (at_ ctx .in_char_func rest (isrc + w.length + 2) false point previous).verdict utf8_mode
        subs_max := by
  induction body generalizing isrc with
  | close =>
    constructor
    · intro sep rest sane separates
      exact (verdict_closed few sane separates rest (isrc + 1) point previous).of_eq
        (verdict_quote few (separates.plain sane).2.2.2.2.1 rest isrc point previous)
    · intro rest
      exact verdict_joined few rest isrc point previous
  | @doubled w body ih =>
    obtain ⟨ends, joins⟩ := ih (isrc + 2)
    have position : isrc + 2 + w.length = isrc + (Ascii.quote :: Ascii.quote :: w).length := by
      simp only [List.length_cons]
      omega
    rw [position] at ends joins
    constructor
    · intro sep rest sane separates
      exact (ends sep rest sane separates).of_eq (verdict_doubled few ..)
    · intro rest
      exact (verdict_doubled few ..).trans (joins rest)
  | @char ch more w plain width body ih =>
    obtain ⟨ends, joins⟩ := ih (isrc + 1 + more.length)
    have position : isrc + 1 + more.length + w.length = isrc + (ch :: (more ++ w)).length := by
      simp only [List.length_cons, List.length_append]
      omega
    have passed : ∀ tail, (at_ ctx .in_string (ch :: (more ++ w) ++ tail) isrc true point
        previous).verdict utf8_mode subs_max =
        (at_ ctx .in_string (w ++ tail) (isrc + 1 + more.length) true point previous).verdict
          utf8_mode subs_max := by
      intro tail
      rw [List.cons_append, List.append_assoc, verdict_char few plain, ← width, List.drop_left]
    rw [position] at ends joins
    constructor
    · intro sep rest sane separates
      exact (ends sep rest sane separates).of_eq (passed _)
    · intro rest
      exact (passed _).trans (joins rest)

variable (utf8_mode) in
/-- A text inside a string is refused unless a quoted string stands in front, and behind
it a separator or a call that is joined to it. -/
theorem quoted_cases (text : List UInt8) (isrc point : Nat) (previous : UInt8) :
    (at_ ctx .in_string text isrc true point previous).verdict utf8_mode subs_max = none ∨
    ∃ w, NameQuoted utf8_mode w ∧
      ((∃ sep rest, ctx.Separates sep ∧ text = w ++ sep :: rest) ∨
        ∃ rest, text = w ++ Ascii.underscore :: Ascii.dollar :: rest) := by
  -- on the length of the text: one turn passes all the bytes of a character
  induction length : text.length using Nat.strong_induction_on generalizing text isrc with
  | _ n ih =>
    cases text with
    | nil => exact .inl (verdict_end rfl)
    | cons ch rest =>
      by_cases quote : ch = Ascii.quote
      · subst quote
        cases rest with
        | nil =>
          refine .inl (verdict_refused (by simp [at_]) few ?_)
          simp [switch, at_, inString, NameParse.letter]
        | cons next behind =>
          by_cases joined : next = Ascii.underscore
          · subst joined
            cases behind with
            | nil =>
              refine .inl (verdict_refused (by simp [at_]) few ?_)
              simp [switch, at_, inString, NameParse.letter, NameParse.next]
            | cons last behind =>
              by_cases dollar : last = Ascii.dollar
              · subst dollar
                exact .inr ⟨[Ascii.quote], .close, .inr ⟨behind, rfl⟩⟩
              · refine .inl (verdict_refused (by simp [at_]) few ?_)
                simp [switch, at_, inString, NameParse.letter, NameParse.next, dollar]
          · by_cases doubled : next = Ascii.quote
            · subst doubled
              rw [verdict_doubled few]
              refine (ih behind.length (by simp only [← length, List.length_cons]; omega) behind (isrc + 2)
                rfl).imp_right ?_
              rintro ⟨w, body, found⟩
              refine ⟨Ascii.quote :: Ascii.quote :: w, .doubled body, found.imp ?_ ?_⟩
              · rintro ⟨sep, tail, separates, rfl⟩
                exact ⟨sep, tail, separates, rfl⟩
              · rintro ⟨tail, rfl⟩
                exact ⟨tail, rfl⟩
            · by_cases separates : ctx.Separates next
              · exact .inr ⟨[Ascii.quote], .close, .inl ⟨next, behind, separates, rfl⟩⟩
              · rw [verdict_quote few joined]
                refine .inl (verdict_refused (by simp [at_]) few ?_)
                have refused := close_refused separates (rfl : next :: behind = next :: behind)
                  .in_string (isrc + 1) false point previous
                simp only [switch, at_, inString, NameParse.letter] at refused ⊢
                simp [doubled, refused]
      · rw [verdict_char few quote]
        by_cases enough : followers utf8_mode ch ≤ rest.length
        · refine (ih _ (by simp only [← length, List.length_cons, List.length_drop]; omega) (rest.drop (followers utf8_mode ch))
            (isrc + 1 + followers utf8_mode ch) rfl).imp_right ?_
          rintro ⟨w, body, found⟩
          refine ⟨ch :: (rest.take (followers utf8_mode ch) ++ w),
            .char quote (List.length_take_of_le enough) body, found.imp ?_ ?_⟩
          · rintro ⟨sep, tail, separates, behind⟩
            refine ⟨sep, tail, separates, ?_⟩
            rw [List.cons_append, List.append_assoc, ← behind, List.take_append_drop]
          · rintro ⟨tail, behind⟩
            refine ⟨tail, ?_⟩
            rw [List.cons_append, List.append_assoc, ← behind, List.take_append_drop]
        · rw [List.drop_eq_nil_of_le (by omega)]
          exact .inl (verdict_end rfl)

end Quoted

/-! ## Calls -/

theorem isLetter_cases {upper c : UInt8} (letter : isLetter upper c = true) :
    c = upper ∨ c = upper + 0x20 := by
  simpa [isLetter] using letter

theorem isDigit_comma : isDigit Ascii.comma = false := by decide

/-- The letters of the function's name are told apart. -/
theorem isLetter_c {c : UInt8} (isC : isLetter Ascii.upperC c = true) :
    isLetter Ascii.upperZ c = false := by
  rcases isLetter_cases isC with rfl | rfl <;> decide

theorem isLetter_ne_paren {upper c : UInt8} (letter : isLetter upper c = true)
    (other : upper ≠ Ascii.open_paren ∧ upper + 0x20 ≠ Ascii.open_paren) : c ≠ Ascii.open_paren := by
  rcases isLetter_cases letter with rfl | rfl
  · exact other.1
  · exact other.2

/-- The parser behind `name`, which stands at the front of its text. -/
def skip (p : NameParse) (name tail : List UInt8) : NameParse :=
  { p with cpt := tail, isrc := p.isrc + name.length }

theorem next_cons {p : NameParse} {ch next : UInt8} {rest : List UInt8}
    (text : p.cpt = ch :: next :: rest) : p.next = some (p.skip [ch] (next :: rest)) :=
  next_eq_some.mpr ⟨ch, next, rest, text, rfl⟩

theorem letter_cons {p : NameParse} {ch : UInt8} {rest : List UInt8} (text : p.cpt = ch :: rest) :
    p.letter = ch := by
  rw [NameParse.letter, text]
  rfl

/-- The end of the name, from the character behind the `C` or `CH` on. -/
theorem charFuncTail_iff {p q : NameParse} : p.charFuncTail = some q ↔
    (∃ tail, p.cpt = Ascii.open_paren :: tail ∧ q = p) ∨
    ∃ x r tail, p.cpt = x :: r :: Ascii.open_paren :: tail ∧ x ≠ Ascii.open_paren ∧
      isLetter 0x52 r = true ∧ q = p.skip [x, r] (Ascii.open_paren :: tail) := by
  unfold charFuncTail
  constructor
  · intro read
    obtain ⟨s, first, last⟩ := Option.bind_eq_some_iff.mp read
    split at last
    case isFalse => cases last
    case isTrue paren =>
      cases last
      split at first
      case isFalse here =>
        cases first
        refine .inl ?_
        match text : p.cpt with
        | [] =>
          rw [NameParse.letter, text] at paren
          exact absurd paren (by decide)
        | ch :: tail =>
          rw [letter_cons text] at paren
          exact ⟨tail, by rw [paren], rfl⟩
      case isTrue there =>
        obtain ⟨t, moved, final⟩ := Option.bind_eq_some_iff.mp first
        obtain ⟨x, r, rest, text, rfl⟩ := next_eq_some.mp moved
        split at final
        case isFalse => cases final
        case isTrue isR =>
          obtain ⟨_, y, tail, text', rfl⟩ := next_eq_some.mp final
          cases text'
          rw [letter_cons rfl] at paren
          subst paren
          rw [letter_cons text] at there
          exact .inr ⟨x, r, tail, text, there, isR, rfl⟩
  · rintro (⟨tail, text, rfl⟩ | ⟨x, r, tail, text, there, isR, rfl⟩)
    · rw [if_neg (not_not.mpr (letter_cons text))]
      exact if_pos (letter_cons text)
    · rw [if_pos (by rw [letter_cons text]; exact there), next_cons text]
      show ((if isLetter 0x52 r = true then _ else _) : Option NameParse).bind _ = _
      rw [if_pos isR, next_cons (rfl : (p.skip [x] (r :: Ascii.open_paren :: tail)).cpt = _)]
      rfl

/-- The parser takes the names of the function, and those that pass for `CHAR`. -/
theorem charFuncName_iff {p q : NameParse} : p.charFuncName = some q ↔
    ∃ name tail, p.cpt = name ++ Ascii.open_paren :: tail ∧ (CharName name ∨ Misspelt name) ∧
      q = p.skip name (Ascii.open_paren :: tail) := by
  rw [charFuncName_eq]
  constructor
  · intro read
    obtain ⟨p₁, first, rest⟩ := Option.bind_eq_some_iff.mp read
    split at rest
    case isTrue => cases rest
    case isFalse notC =>
    have isC : isLetter Ascii.upperC p₁.letter = true := by simpa using notC
    obtain ⟨p₂, second, rest⟩ := Option.bind_eq_some_iff.mp rest
    obtain ⟨c, x, behind, text₁, rfl⟩ := next_eq_some.mp second
    rw [letter_cons text₁] at isC
    obtain ⟨p₃, third, last⟩ := Option.bind_eq_some_iff.mp rest
    split at third
    case isTrue isH =>
      obtain ⟨p₄, moved, final⟩ := Option.bind_eq_some_iff.mp third
      obtain ⟨_, a, behind', text₂, rfl⟩ := next_eq_some.mp moved
      cases text₂
      split at final
      case isFalse => cases final
      case isTrue behindH =>
      cases final
      rcases charFuncTail_iff.mp last with ⟨tail, text₃, rfl⟩ | ⟨_, r, tail, text₃, there, isR, rfl⟩
      · cases text₃
        have isZ : isLetter Ascii.upperZ p.letter = true := by
          rcases behindH with isA | isZ
          · exact absurd rfl (isLetter_ne_paren isA (by decide))
          · exact isZ.2
        rw [if_pos isZ] at first
        obtain ⟨z, _, _, text, rfl⟩ := next_eq_some.mp first
        cases text₁
        rw [letter_cons text] at isZ
        exact ⟨[z, c, x], _, text, .inl (.zch isZ isC isH), rfl⟩
      · cases text₃
        have isA : isLetter 0x41 a = true := behindH.resolve_right fun paren => there paren.1
        split at first
        case isTrue isZ =>
          obtain ⟨z, _, _, text, rfl⟩ := next_eq_some.mp first
          cases text₁
          rw [letter_cons text] at isZ
          exact ⟨[z, c, x, a, r], tail, text, .inl (.zchar isZ isC isH isA isR), rfl⟩
        case isFalse =>
          cases first
          exact ⟨[c, x, a, r], tail, text₁, .inl (.char isC isH isA isR), rfl⟩
    case isFalse notH =>
      split at third
      case isTrue => cases third
      case isFalse notZ =>
      cases third
      rw [if_neg notZ] at first
      cases first
      rcases charFuncTail_iff.mp last with ⟨tail, text₃, rfl⟩ | ⟨_, r, tail, text₃, there, isR, rfl⟩
      · cases text₃
        exact ⟨[c], _, text₁, .inl (.c isC), rfl⟩
      · cases text₃
        exact ⟨[c, x, r], tail, text₁, .inr (.mk isC (Bool.eq_false_iff.mpr notH) there isR), rfl⟩
  · rintro ⟨name, tail, text, (named | misspelt), rfl⟩
    · cases named with
      | c isC =>
        have notH : isLetter Ascii.upperH Ascii.open_paren = false := by decide
        simp [charFuncMiddle, charFuncTail, NameParse.letter, next, skip, text, isC, isLetter_c isC,
          notH]
      | char isC isH isA isR =>
        have there := isLetter_ne_paren isA (by decide)
        simp [charFuncMiddle, charFuncTail, NameParse.letter, next, skip, text, isC, isLetter_c isC,
          isH, isA, isR, there]
      | zch isZ isC isH =>
        simp [charFuncMiddle, charFuncTail, NameParse.letter, next, skip, text, isZ, isC, isH]
      | zchar isZ isC isH isA isR =>
        have there := isLetter_ne_paren isA (by decide)
        simp [charFuncMiddle, charFuncTail, NameParse.letter, next, skip, text, isZ, isC, isH, isA,
          isR, there]
    · obtain ⟨isC, notH, there, isR⟩ := misspelt
      simp [charFuncMiddle, charFuncTail, NameParse.letter, next, skip, text, isC, isLetter_c isC, notH,
        isR, there]

theorem charFuncArgs_digits {digits : List UInt8} (all : AllDigits digits) (rest : List UInt8)
    (isrc : Nat) : charFuncArgs (digits ++ rest) isrc = charFuncArgs rest (isrc + digits.length) := by
  induction digits generalizing isrc with
  | nil => rfl
  | cons ch digits ih =>
    rw [List.cons_append, charFuncArgs.eq_def]
    dsimp only
    rw [if_pos (all ch List.mem_cons_self),
      ih (fun c member => all c (List.mem_cons_of_mem _ member)), List.length_cons,
      Nat.add_assoc, Nat.add_comm 1]

/-- Arguments behind the first and the closing parenthesis, with more text behind it. -/
theorem charFuncArgs_more {more : List UInt8} (args : MoreArgs more) (next : UInt8)
    (behind : List UInt8) (isrc : Nat) :
    charFuncArgs (more ++ Ascii.close_paren :: next :: behind) isrc =
      some (next :: behind, isrc + more.length + 1) := by
  induction args generalizing isrc with
  | nil => rfl
  | @cons digits w some all rest ih =>
    match digits with
    | [] => exact absurd rfl some
    | ch :: digits =>
      have tail : AllDigits digits := fun c member => all c (List.mem_cons_of_mem _ member)
      rw [List.cons_append, List.append_assoc, charFuncArgs.eq_def]
      simp only [List.cons_append, isDigit_comma, Bool.false_eq_true, if_false, true_or, if_true,
        all ch List.mem_cons_self]
      rw [if_neg (by decide), charFuncArgs_digits tail, ih]
      simp only [List.length_cons, List.length_append]
      congr 2
      omega

theorem charFuncArgs_cases {cpt rest : List UInt8} {isrc isrc' : Nat}
    (read : charFuncArgs cpt isrc = some (rest, isrc')) :
    ∃ first more, AllDigits first ∧ MoreArgs more ∧
      cpt = first ++ (more ++ Ascii.close_paren :: rest) ∧ rest ≠ [] ∧
      isrc' = isrc + first.length + more.length + 1 := by
  fun_induction charFuncArgs cpt isrc with
  | case1 => cases read
  | case2 letter tail isrc digit ih =>
    obtain ⟨first, more, all, args, text, left, position⟩ := ih read
    refine ⟨letter :: first, more, ?_, args, by rw [text]; rfl, left, ?_⟩
    · intro ch member
      rcases List.mem_cons.mp member with rfl | inside
      · exact digit
      · exact all ch inside
    · rw [position, List.length_cons]
      omega
  | case3 => cases read
  | case4 isrc next behind notDigit =>
    cases read
    exact ⟨[], [], fun _ member => absurd member List.not_mem_nil, .nil, rfl, by simp, rfl⟩
  | case5 letter isrc notDigit separator next behind notParen digit ih =>
    obtain ⟨first, more, all, args, text, left, position⟩ := ih read
    have comma : letter = Ascii.comma := separator.resolve_right notParen
    subst comma
    refine ⟨[], Ascii.comma :: (next :: first ++ more), fun _ member => absurd member List.not_mem_nil,
      .cons (List.cons_ne_nil _ _) ?_ args, ?_, left, ?_⟩
    · intro ch member
      rcases List.mem_cons.mp member with rfl | inside
      · exact digit
      · exact all ch inside
    · rw [text]
      simp
    · rw [position]
      simp only [List.length_cons, List.length_append, List.length_nil]
      omega
  | case6 => cases read
  | case7 => cases read

/-- What the parser does behind a call. -/
def behindCall (p : NameParse) : Option NameParse :=
  if p.letter = Ascii.underscore then do
    let p ← p.next
    if p.letter = Ascii.dollar then some p
    else if p.letter = Ascii.quote then some { p with instring := true, state := .in_string }
    else none
  else do
    let p ← p.close
    return { p with stop := p.stop ++ [p.isrc] }

theorem inCharFunc_call {p : NameParse} {c behind : List UInt8} {next : UInt8} (call : PassesCall c)
    (text : p.cpt = c ++ next :: behind) : p.inCharFunc = (p.skip c (next :: behind)).behindCall := by
  obtain ⟨name, first, more, rfl, named, all, args⟩ := call
  have split : p.cpt =
      name ++ Ascii.open_paren :: (first ++ (more ++ Ascii.close_paren :: next :: behind)) := by
    rw [text, callText]
    simp
  have parsed := charFuncName_iff.mpr ⟨name, _, split, named, rfl⟩
  have argued : charFuncArgs (first ++ (more ++ Ascii.close_paren :: next :: behind))
      (p.isrc + name.length + 1) = some (next :: behind, p.isrc + (callText name first more).length) := by
    rw [charFuncArgs_digits all, charFuncArgs_more args, callText]
    simp only [List.length_append, List.length_cons, List.length_nil]
    congr 2
    omega
  unfold inCharFunc
  rw [parsed]
  show (charFuncArgs (first ++ (more ++ Ascii.close_paren :: next :: behind))
    (p.isrc + name.length + 1)).bind _ = _
  rw [argued]
  rfl

theorem inCharFunc_cases {p q : NameParse} (read : p.inCharFunc = some q) :
    ∃ c next behind, PassesCall c ∧ p.cpt = c ++ next :: behind := by
  unfold inCharFunc at read
  obtain ⟨p₁, named, rest⟩ := Option.bind_eq_some_iff.mp read
  obtain ⟨⟨cpt, isrc⟩, argued, rest⟩ := Option.bind_eq_some_iff.mp rest
  obtain ⟨name, tail, text, spelt, rfl⟩ := charFuncName_iff.mp named
  obtain ⟨first, more, all, args, split, left, _⟩ := charFuncArgs_cases argued
  match cpt with
  | [] => exact absurd rfl left
  | next :: behind =>
    refine ⟨callText name first more, next, behind, ⟨name, first, more, rfl, spelt, all, args⟩, ?_⟩
    have inside : tail = first ++ (more ++ Ascii.close_paren :: next :: behind) := split
    rw [text, inside, callText]
    simp

section Call

variable (few : ctx.subs_count ≤ subs_max)

include few

variable (utf8_mode) in
/-- The parser behind a call: at a separator, at another call or at a quoted string. -/
theorem verdict_call {c : List UInt8} (call : PassesCall c) (isrc : Nat) (instring : Bool)
    (point : Nat) (previous : UInt8) :
    (∀ sep rest, ctx.Sane → ctx.Separates sep → Ended utf8_mode subs_max
      (at_ ctx .in_char_func (c ++ sep :: rest) isrc instring point previous) ctx true
      (isrc + c.length) sep rest) ∧
    (∀ rest, (at_ ctx .in_char_func (c ++ Ascii.underscore :: Ascii.dollar :: rest) isrc instring
      point previous).verdict utf8_mode subs_max =
      (at_ ctx .in_char_func rest (isrc + c.length + 2) instring point previous).verdict utf8_mode
        subs_max) ∧
    ∀ rest, (at_ ctx .in_char_func (c ++ Ascii.underscore :: Ascii.quote :: rest) isrc instring
      point previous).verdict utf8_mode subs_max =
      (at_ ctx .in_string rest (isrc + c.length + 2) true point previous).verdict utf8_mode
        subs_max := by
  refine ⟨?_, ?_, ?_⟩
  · intro sep rest sane separates
    obtain ⟨ascii, _, _, _, notJoined, _⟩ := separates.plain sane
    have closed := close_eq separates (rfl : sep :: rest = sep :: rest) .in_char_func
      (isrc + c.length) instring point previous
    have turn : (at_ ctx .in_char_func (c ++ sep :: rest) isrc instring point previous).switch =
        some (at_ (ctx.noted true (isrc + c.length)) (ctx.after sep) (sep :: rest) (isrc + c.length)
          instring point previous) := by
      show (at_ ctx .in_char_func (c ++ sep :: rest) isrc instring point previous).inCharFunc = _
      rw [inCharFunc_call call rfl]
      show behindCall (at_ ctx .in_char_func (sep :: rest) (isrc + c.length) instring point
        previous) = _
      unfold behindCall
      rw [if_neg (show ¬ NameParse.letter (at_ ctx .in_char_func (sep :: rest) (isrc + c.length)
        instring point previous) = Ascii.underscore from notJoined), closed]
      rfl
    exact ⟨instring, point, previous, verdict_turn (by simp [at_]) few turn rfl ascii⟩
  · intro rest
    have turn : (at_ ctx .in_char_func (c ++ Ascii.underscore :: Ascii.dollar :: rest) isrc instring
        point previous).switch =
        some (at_ ctx .in_char_func (Ascii.dollar :: rest) (isrc + c.length + 1) instring point
          previous) := by
      show (at_ ctx .in_char_func (c ++ Ascii.underscore :: Ascii.dollar :: rest) isrc instring point
        previous).inCharFunc = _
      rw [inCharFunc_call call rfl]
      simp [behindCall, skip, at_, NameParse.letter, next]
    exact verdict_turn (by simp [at_]) few turn rfl (by decide)
  · intro rest
    have turn : (at_ ctx .in_char_func (c ++ Ascii.underscore :: Ascii.quote :: rest) isrc instring
        point previous).switch =
        some (at_ ctx .in_string (Ascii.quote :: rest) (isrc + c.length + 1) true point
          previous) := by
      show (at_ ctx .in_char_func (c ++ Ascii.underscore :: Ascii.quote :: rest) isrc instring point
        previous).inCharFunc = _
      rw [inCharFunc_call call rfl]
      have notDollar : ¬ Ascii.quote = Ascii.dollar := by decide
      simp [behindCall, skip, at_, NameParse.letter, next, notDollar]
    exact verdict_turn (by simp [at_]) few turn rfl (by decide)

variable (utf8_mode) in
/-- A text behind a dollar sign is refused unless a call stands in front, and behind it
a separator, a call or a quoted string. -/
theorem call_cases (text : List UInt8) (isrc : Nat) (instring : Bool) (point : Nat)
    (previous : UInt8) :
    (at_ ctx .in_char_func text isrc instring point previous).verdict utf8_mode subs_max = none ∨
    ∃ c, PassesCall c ∧
      ((∃ sep rest, ctx.Separates sep ∧ text = c ++ sep :: rest) ∨
        (∃ rest, text = c ++ Ascii.underscore :: Ascii.dollar :: rest) ∨
        ∃ rest, text = c ++ Ascii.underscore :: Ascii.quote :: rest) := by
  match text with
  | [] => exact .inl (verdict_end rfl)
  | ch :: rest =>
    cases turn : (at_ ctx .in_char_func (ch :: rest) isrc instring point previous).inCharFunc with
    | none => exact .inl (verdict_refused (by simp [at_]) few turn)
    | some q =>
      obtain ⟨c, next, behind, call, split⟩ := inCharFunc_cases turn
      have text : ch :: rest = c ++ next :: behind := split
      have letter : ((at_ ctx .in_char_func (ch :: rest) isrc instring point previous).skip c
          (next :: behind)).letter = next := rfl
      rw [inCharFunc_call call split, behindCall, letter] at turn
      refine .inr ⟨c, call, ?_⟩
      by_cases joined : next = Ascii.underscore
      · subst joined
        rw [if_pos rfl] at turn
        obtain ⟨r, moved, last⟩ := Option.bind_eq_some_iff.mp turn
        obtain ⟨_, second, tail, behind', rfl⟩ := next_eq_some.mp moved
        cases behind'
        by_cases dollar : second = Ascii.dollar
        · subst dollar
          exact .inr (.inl ⟨tail, text⟩)
        · by_cases quote : second = Ascii.quote
          · subst quote
            exact .inr (.inr ⟨tail, text⟩)
          · simp [NameParse.letter, dollar, quote] at last
      · rw [if_neg joined] at turn
        by_cases separates : ctx.Separates next
        · exact .inl ⟨next, behind, separates, text⟩
        · obtain ⟨r, closed, _⟩ := Option.bind_eq_some_iff.mp turn
          have refused := close_refused separates (rfl : next :: behind = next :: behind)
            .in_char_func (isrc + c.length) instring point previous
          exact absurd (refused.symm.trans closed) (by simp)

end Call

/-! ## String expressions -/

/-- The state behind the character that opens an expression. -/
def openState (starts : Bool) : NameState := if starts then .in_string else .in_char_func

section Expression

variable (few : ctx.subs_count ≤ subs_max)

include few

/-- The parser behind an expression. -/
theorem verdict_expr {starts ends : Bool} {w rest : List UInt8} {sep : UInt8}
    (expr : StringExpr utf8_mode Alternates PassesCall starts ends w) (sane : ctx.Sane)
    (separates : ctx.Separates sep) (isrc : Nat) (instring : Bool) (point : Nat) (previous : UInt8)
    (inside : starts = true → instring = true) :
    Ended utf8_mode subs_max
      (at_ ctx (openState starts) (w.tail ++ sep :: rest) (isrc + 1) instring point previous) ctx ends
      (isrc + w.length) sep rest := by
  induction expr generalizing isrc instring with
  | @quoted w body =>
    rw [inside rfl]
    have ended := (verdict_quoted few body (isrc + 1) point previous).1 sep rest sane separates
    rw [Nat.add_assoc, Nat.add_comm 1] at ended
    exact ended
  | @call c call =>
    have ended := (verdict_call utf8_mode few call (isrc + 1) instring point previous).1
      sep rest sane separates
    rw [Nat.add_assoc, Nat.add_comm 1] at ended
    exact ended
  | @quotedJoin w more starts ends body joins expr ih =>
    obtain ⟨text, opened⟩ := expr.opened
    have starts : starts = false := by
      cases starts
      · rfl
      · exact absurd ⟨rfl, rfl⟩ joins
    subst starts
    rw [inside rfl]
    have passed := (verdict_quoted few body (isrc + 1) point previous).2 (text ++ sep :: rest)
    have ended := ih (isrc + 1 + w.length + 1) false nofun
    subst opened
    have position : isrc + 1 + w.length + 1 + (opening false :: text).length =
        isrc + (Ascii.quote :: (w ++ Ascii.underscore :: opening false :: text)).length := by
      simp only [List.length_cons, List.length_append]
      omega
    rw [position] at ended
    have split : (Ascii.quote :: (w ++ Ascii.underscore :: opening false :: text)).tail ++ sep :: rest =
        w ++ Ascii.underscore :: Ascii.dollar :: (text ++ sep :: rest) := by
      simp [opening]
    rw [split]
    exact ended.of_eq passed
  | @callJoin c more starts ends call joins expr ih =>
    obtain ⟨text, opened⟩ := expr.opened
    obtain ⟨_, another, string⟩ :=
      verdict_call utf8_mode few call (isrc + 1) instring point previous
    subst opened
    have position : isrc + 1 + c.length + 1 + (opening starts :: text).length =
        isrc + (Ascii.dollar :: (c ++ Ascii.underscore :: opening starts :: text)).length := by
      simp only [List.length_cons, List.length_append]
      omega
    have split : (Ascii.dollar :: (c ++ Ascii.underscore :: opening starts :: text)).tail ++ sep :: rest =
        c ++ Ascii.underscore :: opening starts :: (text ++ sep :: rest) := by
      simp
    rw [split, ← position]
    cases starts with
    | false => exact (ih (isrc + 1 + c.length + 1) instring nofun).of_eq (another _)
    | true => exact (ih (isrc + 1 + c.length + 1) true fun _ => rfl).of_eq (string _)

/-- A text inside an expression is refused unless the rest of an expression stands in
front, and a separator behind it. -/
theorem expr_cases (starts : Bool) (text : List UInt8) (isrc : Nat) (instring : Bool) (point : Nat)
    (previous : UInt8) (inside : starts = true → instring = true) :
    (at_ ctx (openState starts) text isrc instring point previous).verdict utf8_mode subs_max = none ∨
    ∃ ends w sep rest, StringExpr utf8_mode Alternates PassesCall starts ends (opening starts :: w) ∧
      ctx.Separates sep ∧ text = w ++ sep :: rest := by
  induction length : text.length using Nat.strong_induction_on
    generalizing text starts isrc instring with
  | _ n ih =>
    cases starts with
    | true =>
      rw [inside rfl]
      rcases quoted_cases utf8_mode few text isrc point previous with refused | ⟨w, body, found⟩
      · exact .inl refused
      rcases found with ⟨sep, rest, separates, rfl⟩ | ⟨rest, rfl⟩
      · exact .inr ⟨false, w, sep, rest, .quoted body, separates, rfl⟩
      · have passed := (verdict_quoted few body isrc point previous).2 rest
        refine (ih rest.length (by simp [← length]; omega) false rest
          (isrc + w.length + 2) false nofun rfl).imp passed.trans ?_
        rintro ⟨ends, more, sep, tail, expr, separates, rfl⟩
        have alternates : Alternates true false := fun both => nomatch both.2
        refine ⟨ends, w ++ Ascii.underscore :: opening false :: more, sep, tail,
          .quotedJoin body alternates expr, separates, ?_⟩
        simp [opening]
    | false =>
      rcases call_cases utf8_mode few text isrc instring point previous with refused | ⟨c, call, found⟩
      · exact .inl refused
      obtain ⟨_, another, string⟩ := verdict_call utf8_mode few call isrc instring point previous
      rcases found with ⟨sep, rest, separates, rfl⟩ | ⟨rest, rfl⟩ | ⟨rest, rfl⟩
      · exact .inr ⟨true, c, sep, rest, .call call, separates, rfl⟩
      · refine (ih rest.length (by simp [← length]; omega) false rest
          (isrc + c.length + 2) instring nofun rfl).imp (another rest).trans ?_
        rintro ⟨ends, more, sep, tail, expr, separates, rfl⟩
        refine ⟨ends, c ++ Ascii.underscore :: opening false :: more, sep, tail,
          .callJoin call (fun both => nomatch both.1) expr, separates, ?_⟩
        simp [opening]
      · refine (ih rest.length (by simp [← length]; omega) true rest
          (isrc + c.length + 2) true (fun _ => rfl) rfl).imp (string rest).trans ?_
        rintro ⟨ends, more, sep, tail, expr, separates, rfl⟩
        refine ⟨ends, c ++ Ascii.underscore :: opening true :: more, sep, tail,
          .callJoin call (fun both => nomatch both.1) expr, separates, ?_⟩
        simp [opening]

end Expression

end NameParse

end Ydb
