import Ydb.KeyPrinting

/-!
# Parsing the text of a key

The state machine reads the text of a key back component by component. Inside a
string its position is always at the start of a character: every quote of the
string is doubled, and in UTF-8 mode the bytes that follow a lead byte are
themselves no quotes. Numbers and strings then convert to the codes they were
printed from.
-/

namespace Ydb

open Lib

/-! ## Runs of the machine -/

namespace NameParse

variable {utf8_mode : Bool}

/-- The machine goes from one state to another, with turns to spare for the text
that is left. -/
def Reaches (utf8_mode : Bool) (p q : NameParse) : Prop :=
  ∀ turns, p.cpt.length ≤ turns → ∃ left, q.cpt.length ≤ left ∧
    run utf8_mode MAX_GVSUBSCRIPTS turns p = run utf8_mode MAX_GVSUBSCRIPTS left q

theorem Reaches.refl (p : NameParse) : Reaches utf8_mode p p :=
  fun turns enough => ⟨turns, enough, rfl⟩

theorem Reaches.trans {p q r : NameParse} (first : Reaches utf8_mode p q)
    (second : Reaches utf8_mode q r) : Reaches utf8_mode p r := by
  intro turns enough
  obtain ⟨middle, middleEnough, toMiddle⟩ := first turns enough
  obtain ⟨left, leftEnough, toEnd⟩ := second middle middleEnough
  exact ⟨left, leftEnough, toMiddle.trans toEnd⟩

/-- One turn of the loop. -/
theorem Reaches.step {p q : NameParse} (more : p.cpt ≠ []) (few : p.subs_count ≤ MAX_GVSUBSCRIPTS)
    (switched : p.switch = some q) (kept : q.cpt.length ≤ p.cpt.length) :
    Reaches utf8_mode p (q.advance utf8_mode) := by
  intro turns enough
  have positive : 0 < p.cpt.length := List.length_pos_iff.mpr more
  obtain ⟨turns, rfl⟩ : ∃ n, turns = n + 1 := ⟨turns - 1, by omega⟩
  refine ⟨turns, ?_, ?_⟩
  · simp only [advance, List.length_drop]
    split <;> omega
  · rw [run, if_pos ⟨more, few⟩, switched]
    rfl

/-- A run that reaches the end of the text stops there. -/
theorem Reaches.finish {p q : NameParse} (reaches : Reaches utf8_mode p q) (ended : q.cpt = []) :
    run utf8_mode MAX_GVSUBSCRIPTS p.cpt.length p = some q := by
  obtain ⟨left, _, same⟩ := reaches p.cpt.length le_rfl
  rw [same]
  cases left with
  | zero => rfl
  | succ left => rw [run, if_neg (by simp [ended])]

/-- An ASCII character is passed alone. -/
theorem advance_ascii (p : NameParse) (ascii : p.letter < 0x80) :
    p.advance utf8_mode = { p with cpt := p.cpt.drop 1, isrc := p.isrc + 1 } := by
  rw [advance, if_pos (.inr ascii)]

/-- A turn that stays on its ASCII character and passes it. -/
theorem Reaches.letter {p q : NameParse} {ch : UInt8} {rest : List UInt8} (text : p.cpt = ch :: rest)
    (ascii : ch < 0x80) (few : p.subs_count ≤ MAX_GVSUBSCRIPTS) (switched : p.switch = some q)
    (stays : q.cpt = p.cpt) :
    Reaches utf8_mode p { q with cpt := rest, isrc := q.isrc + 1 } := by
  have step : Reaches utf8_mode p (q.advance utf8_mode) :=
    Reaches.step (by rw [text]; simp) few switched (by rw [stays])
  rw [advance_ascii q (by rw [NameParse.letter, stays, text]; exact ascii), stays, text] at step
  exact step

/-- What reading a component and the separator behind it changes. -/
structure Passed (p q : NameParse) (sep : UInt8) (length : Nat) (more : List UInt8) : Prop where
  state : q.state =
    if sep = Ascii.comma then .dispatch_for_starting_component else .end_of_processing
  cpt : q.cpt = more
  isrc : q.isrc = p.isrc + length + 1
  subs_count : q.subs_count = p.subs_count
  contains_env : q.contains_env = p.contains_env
  term : q.term = p.term
  envpart : q.envpart = p.envpart
  start : q.start = p.start
  stop : q.stop = p.stop ++ [p.isrc + length]

/-- The machine has moved by some characters inside a component. -/
structure Moved (p q : NameParse) (length : Nat) : Prop where
  isrc : q.isrc = p.isrc + length
  subs_count : q.subs_count = p.subs_count
  contains_env : q.contains_env = p.contains_env
  term : q.term = p.term
  envpart : q.envpart = p.envpart
  start : q.start = p.start
  stop : q.stop = p.stop

theorem Moved.passed {p q r : NameParse} {sep : UInt8} {first second length : Nat}
    {more : List UInt8} (moved : Moved p q first) (passed : Passed q r sep second more)
    (total : first + second = length) : Passed p r sep length more where
  state := passed.state
  cpt := passed.cpt
  isrc := by rw [passed.isrc, moved.isrc]; omega
  subs_count := passed.subs_count.trans moved.subs_count
  contains_env := passed.contains_env.trans moved.contains_env
  term := passed.term.trans moved.term
  envpart := passed.envpart.trans moved.envpart
  start := passed.start.trans moved.start
  stop := by rw [passed.stop, moved.stop, moved.isrc, Nat.add_assoc, total]

/-- The machine is inside the list of subscripts. -/
structure InList (p : NameParse) : Prop where
  term : p.term = Ascii.close_paren
  envpart : p.envpart = 1
  few : p.subs_count ≤ MAX_GVSUBSCRIPTS

theorem Moved.inList {p q : NameParse} {length : Nat} (moved : Moved p q length)
    (inList : p.InList) : q.InList :=
  ⟨moved.term.trans inList.term, moved.envpart.trans inList.envpart,
    moved.subs_count ▸ inList.few⟩

/-- A comma or the closing parenthesis. -/
def IsSeparator (sep : UInt8) : Prop := sep = Ascii.comma ∨ sep = Ascii.close_paren

theorem IsSeparator.ascii {sep : UInt8} (separator : IsSeparator sep) :
    sep < 0x80 ∧ isDigit sep = false ∧ sep ≠ Ascii.dot ∧ sep ≠ Ascii.quote := by
  rcases separator with rfl | rfl <;> decide

/-- The separator ends the component. -/
theorem close_separator {p : NameParse} (inList : p.InList) {sep : UInt8}
    (separator : IsSeparator sep) {more : List UInt8} (text : p.cpt = sep :: more) :
    p.close = some { p with
      state := if sep = Ascii.comma then .dispatch_for_starting_component
        else .end_of_processing } := by
  have letter : p.letter = sep := by rw [NameParse.letter, text]; rfl
  rw [close, letter, inList.term]
  rcases separator with rfl | rfl
  · rfl
  · rfl

/-! ## Numbers -/

theorem switch_in_number {p : NameParse} (state : p.state = .in_number) :
    p.switch = p.inNumber := by
  rw [switch, state]

/-- A text that the machine accepts as the rest of a number. -/
def Numeral : Nat → UInt8 → List UInt8 → Prop
  | point, previous, [] => ¬ (0 < point ∧ previous = Ascii.zero)
  | point, previous, ch :: rest =>
    (isDigit ch = true ∧ ¬ (previous = Ascii.minus ∧ ch = Ascii.zero) ∧ Numeral point ch rest) ∨
      (ch = Ascii.dot ∧ point = 0 ∧ Numeral 1 ch rest)

theorem Reaches.numeral {text : List UInt8} {p : NameParse} (inNumber : p.state = .in_number)
    (inList : p.InList) {sep : UInt8} (separator : IsSeparator sep) {more : List UInt8}
    (cpt : p.cpt = text ++ sep :: more) (numeral : Numeral p.point p.previous text) :
    ∃ q, Reaches utf8_mode p q ∧ Passed p q sep text.length more := by
  induction text generalizing p with
  | nil =>
    have letter : p.letter = sep := by rw [NameParse.letter, cpt]; rfl
    obtain ⟨ascii, notDigit, notDot, _⟩ := separator.ascii
    have switched : p.switch = some
        { p with
          state := if sep = Ascii.comma then .dispatch_for_starting_component
            else .end_of_processing
          stop := p.stop ++ [p.isrc]
          previous := sep } := by
      rw [switch_in_number inNumber, NameParse.inNumber, letter, notDigit, if_neg (by decide), if_neg notDot,
        if_neg numeral, close_separator inList separator cpt]
      simp only [Option.bind_eq_bind, Option.bind_some, noteStop, inList.envpart, or_true, if_true]
      rfl
    refine ⟨_, Reaches.letter cpt ascii inList.few switched rfl, ?_⟩
    constructor <;> simp
  | cons ch text ih =>
    have letter : p.letter = ch := by rw [NameParse.letter, cpt]; rfl
    have continues : ∀ point, ch < 0x80 → Numeral point ch text →
        p.switch = some { p with point := point, previous := ch } →
        ∃ r, Reaches utf8_mode p r ∧ Passed p r sep (ch :: text).length more := by
      intro point ascii rest switched
      let q : NameParse :=
        { p with point := point, previous := ch, cpt := text ++ sep :: more, isrc := p.isrc + 1 }
      have step : Reaches utf8_mode p q := Reaches.letter cpt ascii inList.few switched rfl
      have moved : Moved p q 1 := ⟨rfl, rfl, rfl, rfl, rfl, rfl, rfl⟩
      have behind : ∃ r, Reaches utf8_mode q r ∧ Passed q r sep text.length more :=
        ih inNumber (moved.inList inList) rfl rest
      obtain ⟨r, reaches, passed⟩ := behind
      exact ⟨r, step.trans reaches, moved.passed passed (Nat.add_comm _ _)⟩
    rcases numeral with ⟨digit, signed, rest⟩ | ⟨rfl, first, rest⟩
    · refine continues p.point ?_ rest ?_
      · have := (isDigit_iff ch).mp digit
        rw [UInt8.lt_iff_toNat_lt]
        exact lt_of_le_of_lt this.2 (by decide)
      · rw [switch_in_number inNumber, NameParse.inNumber, letter, if_pos digit, if_neg signed]
    · refine continues 1 (by decide) rest ?_
      rw [switch_in_number inNumber, NameParse.inNumber, letter, isDigit_dot,
        if_neg (by decide), if_pos rfl, first, if_neg (by decide)]

/-- A run of digits, not starting with zero behind the sign. -/
theorem Numeral.digits {point : Nat} {previous : UInt8} {ds : List Nat} {rest : List UInt8}
    (some : ds ≠ []) (small : ∀ d ∈ ds, d < 10)
    (signed : previous = Ascii.minus → ∀ first ∈ ds.head?, first ≠ 0)
    (behind : ∀ final ∈ ds.getLast?, Numeral point (digitByte final) rest) :
    Numeral point previous (ds.map digitByte ++ rest) := by
  induction ds generalizing previous with
  | nil => exact absurd rfl some
  | cons d ds ih =>
    have bound := small d List.mem_cons_self
    refine .inl ⟨isDigit_digitByte d bound, ?_, ?_⟩
    · rintro ⟨minus, zero⟩
      exact signed minus d rfl ((digitByte_eq_zero d bound).mp zero)
    · cases ds with
      | nil => exact behind d rfl
      | cons next ds =>
        apply ih (by simp)
        · exact fun other member => small other (List.mem_cons_of_mem d member)
        · intro minus
          exact absurd minus (digitByte_ne d bound Ascii.minus rfl)
        · intro final last
          exact behind final (by rw [List.getLast?_cons_cons]; exact last)

/-- A canonical text is accepted behind its sign. -/
theorem numeral_text (d : Decimal) (previous : UInt8) :
    ∃ body, d.text = Decimal.signText d.neg ++ body ∧ Numeral 0 previous body := by
  obtain ⟨first, others, head, nonzero⟩ := d.significant_head
  have small := d.significant_lt
  obtain ⟨kept, final, last, finalNonzero⟩ := d.significant_last
  have finalSmall := small final (by rw [last]; simp)
  have headed : ∀ ds, ∀ digit ∈ (d.significant ++ ds).head?, digit ≠ 0 := by
    intro ds digit member
    rw [head] at member
    exact Option.some.inj member ▸ nonzero
  -- A fraction ends in the last significant digit, which is not zero.
  have ended : ∀ digit ∈ d.significant.getLast?, Numeral 1 (digitByte digit) [] := by
    rintro digit member ⟨_, zero⟩
    rw [last, List.getLast?_concat] at member
    obtain rfl := Option.some.inj member
    exact finalNonzero ((digitByte_eq_zero _ finalSmall).mp zero)
  rcases d.text_shapes with ⟨n, _, _, text⟩ | ⟨whole, fraction, _, split, wholeSome, some, text⟩ |
      ⟨n, _, text⟩
  · refine ⟨_, text, ?_⟩
    rw [← List.append_nil (List.map _ _)]
    apply Numeral.digits
    · simp [d.significant_ne_nil]
    · intro digit member
      rcases List.mem_append.mp member with inside | zero
      · exact small digit inside
      · rw [List.eq_of_mem_replicate zero]
        decide
    · exact fun _ => headed _
    · rintro digit _ ⟨positive, _⟩
      exact absurd positive (by decide)
  · refine ⟨_, text, Numeral.digits wholeSome ?_ ?_ fun _ _ => .inr ⟨rfl, rfl, ?_⟩⟩
    · exact fun digit member => small digit (by rw [split]; exact List.mem_append_left _ member)
    · intro _ digit member
      have inside := headed [] digit
      rw [List.append_nil, split, List.head?_append_of_ne_nil _ wholeSome] at inside
      exact inside member
    · rw [← List.append_nil (List.map _ _)]
      apply Numeral.digits some
      · exact fun digit member => small digit (by rw [split]; exact List.mem_append_right _ member)
      · intro impossible
        cases impossible
      · intro digit member
        apply ended digit
        rw [split, List.getLast?_append_of_ne_nil _ some]
        exact member
  · refine ⟨_, text, .inr ⟨rfl, rfl, ?_⟩⟩
    rw [show List.replicate n Ascii.zero = (List.replicate n 0).map digitByte by simp,
      ← List.map_append, ← List.append_nil (List.map _ _)]
    apply Numeral.digits
    · simp [d.significant_ne_nil]
    · intro digit member
      rcases List.mem_append.mp member with zero | inside
      · rw [List.eq_of_mem_replicate zero]
        decide
      · exact small digit inside
    · intro impossible
      cases impossible
    · intro digit member
      rw [List.getLast?_append_of_ne_nil _ d.significant_ne_nil] at member
      exact ended digit member

/-- How a canonical text starts. -/
theorem numeral_start (d : Decimal) : ∃ ch rest, d.text = ch :: rest ∧ ch < 0x80 ∧
    (ch ≠ Ascii.quote ∧ ch ≠ Ascii.dollar ∧ ch ≠ Ascii.zero ∧
      (ch = Ascii.minus ∨ ch = Ascii.dot ∨ isDigit ch)) ∧
    Numeral (if ch = Ascii.dot then 1 else 0) ch rest := by
  cases sign : d.neg with
  | true =>
    obtain ⟨body, text, numeral⟩ := numeral_text d Ascii.minus
    rw [sign] at text
    exact ⟨Ascii.minus, body, text, by decide, by decide, numeral⟩
  | false =>
    obtain ⟨body, text, numeral⟩ := numeral_text d 0
    obtain ⟨c, behind, headed, _, notZero⟩ := d.text_body
    rw [sign] at text headed
    have same : body = c :: behind := List.append_cancel_left (text.symm.trans headed)
    rw [same] at numeral
    refine ⟨c, behind, headed, ?_⟩
    rcases numeral with ⟨digit, _, rest⟩ | ⟨rfl, _, rest⟩
    · have range := (isDigit_iff c).mp digit
      have other : ∀ ch : UInt8, isDigit ch = false → c ≠ ch := by
        rintro ch notDigit rfl
        rw [digit] at notDigit
        cases notDigit
      rw [if_neg (other Ascii.dot rfl)]
      refine ⟨?_, ⟨other _ rfl, other _ rfl, notZero, .inr (.inr digit)⟩, rest⟩
      rw [UInt8.lt_iff_toNat_lt]
      exact lt_of_le_of_lt range.2 (by decide)
    · exact ⟨by decide, by decide, rest⟩

/-! ## Strings -/

/-- Every lead byte is followed by its trailing bytes; `pending` of them are still
to come. -/
def utf8Follows : Nat → List UInt8 → Bool
  | 0, [] => true
  | _ + 1, [] => false
  | 0, ch :: rest => utf8Follows (utf8_followlen ch).toNat rest
  | pending + 1, ch :: rest => decide (0x80 ≤ ch) && utf8Follows pending rest

theorem utf8Follows_le {pending : Nat} {bytes : List UInt8}
    (follows : utf8Follows pending bytes = true) : pending ≤ bytes.length := by
  induction bytes generalizing pending with
  | nil =>
    cases pending with
    | zero => exact le_rfl
    | succ pending => cases follows
  | cons ch bytes ih =>
    cases pending with
    | zero => exact Nat.zero_le _
    | succ pending =>
      rw [utf8Follows, Bool.and_eq_true] at follows
      exact Nat.succ_le_succ (ih follows.2)

theorem switch_in_string {p : NameParse} (state : p.state = .in_string) :
    p.switch = p.inString := by
  rw [switch, state]

/-- A quote inside a string suspends it; only the next character tells whether it
has ended. -/
theorem switch_quote {p : NameParse} (inString : p.state = .in_string)
    (open_ : p.instring = true) {next : UInt8} (notConcat : next ≠ Ascii.underscore)
    {more : List UInt8} (cpt : p.cpt = Ascii.quote :: next :: more) :
    p.switch = some { p with instring := false } := by
  have letter : p.letter = Ascii.quote := by rw [NameParse.letter, cpt]; rfl
  rw [switch_in_string inString, NameParse.inString, if_pos letter, open_, cpt]
  simp [notConcat]

/-- The end of a string: its closing quote and the separator. -/
theorem Reaches.closingQuote {p : NameParse} (inString : p.state = .in_string)
    (inList : p.InList) (open_ : p.instring = true) {sep : UInt8} (separator : IsSeparator sep)
    {more : List UInt8} (cpt : p.cpt = Ascii.quote :: sep :: more) :
    ∃ q, Reaches utf8_mode p q ∧ Passed p q sep 1 more := by
  obtain ⟨ascii, _, _, notQuote⟩ := separator.ascii
  have notConcat : sep ≠ Ascii.underscore := by
    rcases separator with rfl | rfl <;> decide
  have closes := switch_quote inString open_ notConcat cpt
  let q : NameParse := { p with instring := false, cpt := sep :: more, isrc := p.isrc + 1 }
  have toSeparator : Reaches utf8_mode p q :=
    Reaches.letter cpt (by decide) inList.few closes rfl
  have moved : Moved p q 1 := ⟨rfl, rfl, rfl, rfl, rfl, rfl, rfl⟩
  have switched : q.switch = some { q with
      state := if sep = Ascii.comma then .dispatch_for_starting_component else .end_of_processing
      stop := q.stop ++ [q.isrc] } := by
    have state : q.state = .in_string := inString
    have separatorLetter : q.letter = sep := rfl
    rw [switch_in_string state, NameParse.inString, separatorLetter, if_neg notQuote,
      if_neg (show ¬ q.instring = true from Bool.false_ne_true), close_separator (moved.inList inList) separator rfl]
    simp only [Option.bind_eq_bind, Option.bind_some, noteStop, (moved.inList inList).envpart,
      or_true, if_true]
    rfl
  have behind : Reaches utf8_mode q _ := Reaches.letter rfl ascii inList.few switched rfl
  refine ⟨_, toSeparator.trans behind, ?_⟩
  constructor <;> rfl

/-- Inside a string the machine stays at the starts of its characters. -/
theorem Reaches.quoted {bytes : List UInt8} {pending : Nat} {p : NameParse}
    (inString : p.state = .in_string) (inList : p.InList) (open_ : p.instring = true) {sep : UInt8}
    (separator : IsSeparator sep) {more : List UInt8}
    (cpt : p.cpt = (doubled bytes ++ Ascii.quote :: sep :: more).drop pending)
    (follows : if utf8_mode then utf8Follows pending bytes = true else pending = 0) :
    ∃ q, Reaches utf8_mode p q ∧
      Passed p q sep ((doubled bytes).length + 1 - pending) more := by
  induction bytes generalizing pending p with
  | nil =>
    obtain rfl : pending = 0 := by
      cases pending with
      | zero => rfl
      | succ pending => cases utf8_mode <;> simp [utf8Follows] at follows
    exact Reaches.closingQuote inString inList open_ separator cpt
  | cons ch bytes ih =>
    cases pending with
    | succ pending =>
      -- A trailing byte has been passed with its lead byte and is no quote.
      obtain ⟨isUtf8, high, behind⟩ : utf8_mode = true ∧ 0x80 ≤ ch ∧
          utf8Follows pending bytes = true := by
        cases utf8_mode
        · simp at follows
        · simpa [utf8Follows] using follows
      have notQuote : ch ≠ Ascii.quote := by
        rintro rfl
        exact absurd high (by decide)
      rw [doubled_cons, if_neg notQuote, List.singleton_append, List.cons_append,
        List.drop_succ_cons] at cpt
      rw [doubled_cons, if_neg notQuote, List.singleton_append, List.length_cons,
        show (doubled bytes).length + 1 + 1 - (pending + 1) = (doubled bytes).length + 1 - pending
          by omega]
      exact ih inString inList open_ cpt (by rw [if_pos isUtf8]; exact behind)
    | zero =>
      rw [List.drop_zero, doubled_cons] at cpt
      by_cases isQuote : ch = Ascii.quote
      · subst isQuote
        rw [if_pos rfl, List.cons_append, List.cons_append, List.cons_append, List.nil_append]
          at cpt
        have first := switch_quote inString open_ (by decide) cpt
        let q : NameParse :=
          { p with
            instring := false
            cpt := Ascii.quote :: (doubled bytes ++ Ascii.quote :: sep :: more)
            isrc := p.isrc + 1 }
        have state : q.state = .in_string := inString
        have second : q.switch = some { q with instring := true } := by
          rw [switch_in_string state]
          rfl
        let r : NameParse :=
          { p with
            instring := true
            cpt := doubled bytes ++ Ascii.quote :: sep :: more
            isrc := p.isrc + 1 + 1 }
        have toSecond : Reaches utf8_mode p q :=
          Reaches.letter cpt (by decide) inList.few first rfl
        have few : q.subs_count ≤ MAX_GVSUBSCRIPTS := inList.few
        have toRest : Reaches utf8_mode q r := Reaches.letter rfl (by decide) few second rfl
        have moved : Moved p r 2 := ⟨rfl, rfl, rfl, rfl, rfl, rfl, rfl⟩
        have behind : ∃ s, Reaches utf8_mode r s ∧
            Passed r s sep ((doubled bytes).length + 1 - 0) more := by
          refine ih inString (moved.inList inList) rfl rfl ?_
          cases utf8_mode
          · rfl
          · exact follows
        obtain ⟨s, reaches, passed⟩ := behind
        refine ⟨s, (toSecond.trans toRest).trans reaches, moved.passed passed ?_⟩
        rw [doubled_cons, if_pos rfl, List.length_append]
        simp only [List.length_cons, List.length_nil]
        omega
      · rw [if_neg isQuote, List.singleton_append, List.cons_append] at cpt
        have letter : p.letter = ch := by rw [NameParse.letter, cpt]; rfl
        have stays : p.switch = some p := by
          rw [switch_in_string inString, NameParse.inString, letter, if_neg isQuote, open_]
          rfl
        have step : Reaches utf8_mode p (p.advance utf8_mode) :=
          Reaches.step (by rw [cpt]; simp) inList.few stays le_rfl
        obtain ⟨n, jump, pending⟩ : ∃ n, p.advance utf8_mode =
            { p with cpt := p.cpt.drop (n + 1), isrc := p.isrc + (n + 1) } ∧
            (if utf8_mode then utf8Follows n bytes = true else n = 0) := by
          cases utf8_mode with
          | false => exact ⟨0, by rw [advance, if_pos (.inl rfl)], rfl⟩
          | true =>
            refine ⟨(utf8_followlen ch).toNat, ?_, follows⟩
            rw [advance, letter]
            by_cases ascii : ch < 0x80
            · rw [if_pos (.inr ascii), utf8_followlen, if_pos ascii]
              rfl
            · rw [if_neg (by simp [ascii]), Nat.add_comm]
        have few : n ≤ bytes.length := by
          cases utf8_mode with
          | false => exact le_of_eq_of_le pending (Nat.zero_le _)
          | true => exact utf8Follows_le pending
        have longer := length_le_doubled bytes
        let q : NameParse := { p with cpt := p.cpt.drop (n + 1), isrc := p.isrc + (n + 1) }
        have moved : Moved p q (n + 1) := ⟨rfl, rfl, rfl, rfl, rfl, rfl, rfl⟩
        have behind : ∃ r, Reaches utf8_mode q r ∧
            Passed q r sep ((doubled bytes).length + 1 - n) more := by
          refine ih inString (moved.inList inList) open_ ?_ pending
          change p.cpt.drop (n + 1) = _
          rw [cpt, List.drop_succ_cons]
        obtain ⟨r, reaches, passed⟩ := behind
        refine ⟨r, (jump ▸ step).trans reaches, moved.passed passed ?_⟩
        rw [doubled_cons, if_neg isQuote, List.singleton_append, List.length_cons]
        omega

/-! ## Components -/

/-- The machine as it starts on a subscript. -/
def opened (p : NameParse) : NameParse :=
  { p with
    point := 0, instring := false
    subs_count := p.subs_count + 1
    start := p.start ++ [p.isrc] }

/-- In UTF-8 mode, strings must keep to the encoding. -/
def Encoded (utf8_mode : Bool) : Subscript → Prop
  | .string bytes => utf8_mode = true → utf8Follows 0 bytes = true
  | _ => True

/-- Behind a zero stands the separator. -/
theorem zeroComponent_next {p q : NameParse} {sep : UInt8} (next : p.next = some q)
    (separator : IsSeparator sep) (letter : q.letter = sep) (term : q.term = Ascii.close_paren)
    (state : q.state = .dispatch_for_starting_component) :
    p.zeroComponent = some { q with
      state := if sep = Ascii.comma then .dispatch_for_starting_component else .end_of_processing
      stop := q.stop ++ [q.isrc] } := by
  rw [zeroComponent, next]
  change (if q.letter = q.term then _ else _) = _
  rcases separator with rfl | rfl
  · rw [letter, term, if_neg (by decide), if_pos rfl, if_pos rfl, ← state, ← term]
  · rw [letter, term, if_pos rfl, if_pos rfl, if_neg (by decide), ← term]

section Component

variable {p : NameParse} (starting : p.state = .dispatch_for_starting_component)
  (inList : p.opened.InList) {sep : UInt8} (separator : IsSeparator sep) {more : List UInt8}

include starting inList in
theorem switch_dispatch : p.switch = p.opened.componentKind := by
  have term : p.term = Ascii.close_paren := inList.term
  have envpart : p.envpart = 1 := inList.envpart
  have open_ : p.openComponent = p.opened := by
    simp only [openComponent, term, envpart, if_true, or_true, opened]
  rw [switch, starting]
  dsimp only
  rw [dispatch, envpart, if_neg (by decide), open_]

include starting inList separator in
theorem Reaches.quotedComponent {bytes : List UInt8}
    (cpt : p.cpt = Ascii.quote :: (doubled bytes ++ Ascii.quote :: sep :: more))
    (follows : utf8_mode = true → utf8Follows 0 bytes = true) :
    ∃ q, Reaches utf8_mode p q ∧ Passed p.opened q sep ((doubled bytes).length + 2) more := by
  have letter : p.opened.letter = Ascii.quote := by
    rw [NameParse.letter, show p.opened.cpt = p.cpt from rfl, cpt]
    rfl
  have few : p.subs_count ≤ MAX_GVSUBSCRIPTS := by
    have opened : p.subs_count + 1 ≤ MAX_GVSUBSCRIPTS := inList.few
    omega
  have switched : p.switch = some { p.opened with instring := true, state := .in_string } := by
    rw [switch_dispatch starting inList, componentKind, if_pos letter]
  let q : NameParse :=
    { p.opened with
      instring := true, state := .in_string
      cpt := doubled bytes ++ Ascii.quote :: sep :: more
      isrc := p.isrc + 1 }
  have step : Reaches utf8_mode p q := Reaches.letter cpt (by decide) few switched rfl
  have moved : Moved p.opened q 1 := ⟨rfl, rfl, rfl, rfl, rfl, rfl, rfl⟩
  have behind : ∃ r, Reaches utf8_mode q r ∧
      Passed q r sep ((doubled bytes).length + 1 - 0) more := by
    refine Reaches.quoted rfl (moved.inList inList) rfl separator rfl ?_
    cases utf8_mode
    · rfl
    · exact follows rfl
  obtain ⟨r, reaches, passed⟩ := behind
  exact ⟨r, step.trans reaches, moved.passed passed (by omega)⟩

include starting inList separator in
theorem Reaches.zeroComponent (cpt : p.cpt = Ascii.zero :: sep :: more) :
    ∃ q, Reaches utf8_mode p q ∧ Passed p.opened q sep 1 more := by
  have few : p.subs_count ≤ MAX_GVSUBSCRIPTS := by
    have opened : p.subs_count + 1 ≤ MAX_GVSUBSCRIPTS := inList.few
    omega
  have term : p.opened.term = Ascii.close_paren := inList.term
  let q : NameParse :=
    { p.opened with
      state := if sep = Ascii.comma then .dispatch_for_starting_component else .end_of_processing
      cpt := sep :: more
      isrc := p.isrc + 1
      stop := p.stop ++ [p.isrc + 1] }
  have switched : p.switch = some q := by
    have letter : p.opened.letter = Ascii.zero := by
      rw [NameParse.letter, show p.opened.cpt = p.cpt from rfl, cpt]
      rfl
    have next : p.opened.next = some { p.opened with cpt := sep :: more, isrc := p.isrc + 1 } := by
      rw [NameParse.next, show p.opened.cpt = p.cpt from rfl, cpt, if_neg (by simp)]
      rfl
    rw [switch_dispatch starting inList, componentKind, letter, if_neg (by decide),
      if_neg (by decide), if_pos rfl]
    exact zeroComponent_next next separator rfl term starting
  have step : Reaches utf8_mode p (q.advance utf8_mode) :=
    Reaches.step (by rw [cpt]; simp) few switched (by rw [cpt]; simp [q])
  have ascii : q.letter < 0x80 := separator.ascii.1
  rw [advance_ascii q ascii] at step
  refine ⟨_, step, ?_⟩
  constructor <;> rfl

include starting inList separator in
theorem Reaches.numberComponent {d : Decimal} (cpt : p.cpt = d.text ++ sep :: more) :
    ∃ q, Reaches utf8_mode p q ∧ Passed p.opened q sep d.text.length more := by
  have few : p.subs_count ≤ MAX_GVSUBSCRIPTS := by
    have opened : p.subs_count + 1 ≤ MAX_GVSUBSCRIPTS := inList.few
    omega
  obtain ⟨ch, rest, text, ascii, kind, numeral⟩ := numeral_start d
  have letter : p.opened.letter = ch := by
    rw [NameParse.letter, show p.opened.cpt = p.cpt from rfl, cpt, text]
    rfl
  obtain ⟨notQuote, notDollar, notZero, number⟩ := kind
  let point := if ch = Ascii.dot then 1 else 0
  have switched : p.switch = some
      { p.opened with point := point, previous := ch, state := .in_number } := by
    rw [switch_dispatch starting inList, componentKind, letter, if_neg notQuote, if_neg notDollar,
      if_neg notZero, if_pos number]
    rfl
  let q : NameParse :=
    { p.opened with
      point := point, previous := ch, state := .in_number
      cpt := rest ++ sep :: more
      isrc := p.isrc + 1 }
  rw [text] at cpt
  have step : Reaches utf8_mode p q := Reaches.letter cpt ascii few switched rfl
  have moved : Moved p.opened q 1 := ⟨rfl, rfl, rfl, rfl, rfl, rfl, rfl⟩
  have behind : ∃ r, Reaches utf8_mode q r ∧ Passed q r sep rest.length more :=
    Reaches.numeral rfl (moved.inList inList) separator rfl numeral
  obtain ⟨r, reaches, passed⟩ := behind
  refine ⟨r, step.trans reaches, moved.passed passed ?_⟩
  rw [text, List.length_cons, Nat.add_comm]

include starting inList separator in
/-- A printed subscript is one component. -/
theorem Reaches.component {s : Subscript} {item : List UInt8} (printed : s.Printed item)
    (encoded : Encoded utf8_mode s) (cpt : p.cpt = item ++ sep :: more) :
    ∃ q, Reaches utf8_mode p q ∧ Passed p.opened q sep item.length more := by
  cases printed with
  | null =>
    have text : p.cpt = Ascii.quote :: (doubled [] ++ Ascii.quote :: sep :: more) := cpt
    exact Reaches.quotedComponent starting inList separator text fun _ => rfl
  | zero => exact Reaches.zeroComponent starting inList separator cpt
  | decimal d inRange => exact Reaches.numberComponent starting inList separator cpt
  | string bytes some =>
    have item : (Ascii.quote :: (doubled bytes ++ [Ascii.quote])).length =
        (doubled bytes).length + 2 := by
      simp
    rw [item]
    refine Reaches.quotedComponent starting inList separator ?_ encoded
    rw [cpt, List.cons_append, List.append_assoc]
    rfl

end Component

/-! ## The whole reference -/

/-- Where the components of a list that starts at `offset` start and stop. -/
def bounds : Nat → List (List UInt8) → List (Nat × Nat)
  | _, [] => []
  | offset, item :: rest =>
    (offset, offset + item.length) :: bounds (offset + item.length + 1) rest

theorem bounds_length (offset : Nat) (items : List (List UInt8)) :
    (bounds offset items).length = items.length := by
  induction items generalizing offset with
  | nil => rfl
  | cons item items ih =>
    rw [bounds, List.length_cons, List.length_cons, ih]

/-- The list of subscripts is read to its end. -/
theorem Reaches.list {ss : List Subscript} {items : List (List UInt8)}
    (printed : List.Forall₂ Subscript.Printed ss items)
    (encoded : ∀ s ∈ ss, Encoded utf8_mode s) (some : items ≠ []) {p : NameParse}
    (starting : p.state = .dispatch_for_starting_component)
    (term : p.term = Ascii.close_paren) (envpart : p.envpart = 1)
    (few : p.subs_count + items.length ≤ MAX_GVSUBSCRIPTS) (cpt : p.cpt = listText items) :
    ∃ q, Reaches utf8_mode p q ∧ q.state = .end_of_processing ∧ q.cpt = [] ∧
      q.subs_count = p.subs_count + items.length ∧ q.contains_env = p.contains_env ∧
      q.start = p.start ++ (bounds p.isrc items).map Prod.fst ∧
      q.stop = p.stop ++ (bounds p.isrc items).map Prod.snd := by
  induction printed generalizing p with
  | nil => exact absurd rfl some
  | @cons s item ss items first rest ih =>
    rw [List.length_cons] at few
    push_cast at few
    have inList : p.opened.InList := by
      refine ⟨term, envpart, ?_⟩
      change p.subs_count + 1 ≤ _
      omega
    have here := encoded s List.mem_cons_self
    cases items with
    | nil =>
      obtain ⟨q, reaches, passed⟩ :=
        Reaches.component starting inList (.inr rfl) first here cpt
      refine ⟨q, reaches, passed.state, passed.cpt, passed.subs_count, passed.contains_env,
        passed.start, passed.stop⟩
    | cons next items =>
      rw [listText_cons_cons] at cpt
      obtain ⟨q, reaches, passed⟩ :=
        Reaches.component starting inList (.inl rfl) first here cpt
      have counted : q.subs_count = p.subs_count + 1 := passed.subs_count
      obtain ⟨r, behind, state, ended, count, env, start, stop⟩ := ih
        (fun other member => encoded other (List.mem_cons_of_mem s member)) (by simp) passed.state
        (passed.term.trans term) (passed.envpart.trans envpart)
        (by rw [counted]; omega) passed.cpt
      refine ⟨r, reaches.trans behind, state, ended, ?_, env.trans passed.contains_env, ?_, ?_⟩
      · simp only [count, counted, List.length_cons]
        push_cast
        ring
      · rw [start, passed.start, passed.isrc]
        simp [opened, bounds]
      · rw [stop, passed.stop, passed.isrc]
        simp [opened, bounds]

/-- A percent sign or a letter, then letters and digits. -/
structure ValidName (name : List UInt8) : Prop where
  shape : ∃ first rest, name = first :: rest ∧ (first = Ascii.percent ∨ isAlpha first = true) ∧
    ∀ ch ∈ rest, isAlnum ch = true

theorem isAlnum_ascii {ch : UInt8} (alnum : isAlnum ch = true) :
    ch < 0x80 ∧ ch ≠ Ascii.open_paren := by
  constructor
  · simp only [isAlnum, isAlpha, isDigit, Bool.or_eq_true, Bool.and_eq_true, decide_eq_true_eq,
      UInt8.le_iff_toNat_le] at alnum
    rw [UInt8.lt_iff_toNat_lt]
    have range : ch.toNat ≤ 122 := by
      rcases alnum with (⟨_, upper⟩ | ⟨_, upper⟩) | ⟨_, upper⟩
      · exact le_trans upper (by decide)
      · exact upper
      · exact le_trans upper (by decide)
    exact lt_of_le_of_lt range (by decide)
  · rintro rfl
    exact absurd alnum (by decide)

/-- The letters of a name are passed. -/
theorem Reaches.letters {name : List UInt8} (alnum : ∀ ch ∈ name, isAlnum ch = true)
    {p : NameParse} (inName : p.state = .expect_next_letter_of_name)
    (few : p.subs_count ≤ MAX_GVSUBSCRIPTS) {more : List UInt8} (cpt : p.cpt = name ++ more) :
    Reaches utf8_mode p { p with cpt := more, isrc := p.isrc + name.length } := by
  induction name generalizing p with
  | nil =>
    rw [List.nil_append] at cpt
    rw [← cpt]
    exact Reaches.refl p
  | cons ch name ih =>
    have letter : p.letter = ch := by rw [NameParse.letter, cpt]; rfl
    have alnumHere := alnum ch List.mem_cons_self
    obtain ⟨ascii, notOpen⟩ := isAlnum_ascii alnumHere
    have switched : p.switch = some p := by
      rw [switch, inName]
      dsimp only
      rw [nextLetterOfName, letter, if_neg notOpen, if_pos alnumHere]
    let q : NameParse := { p with cpt := name ++ more, isrc := p.isrc + 1 }
    have step : Reaches utf8_mode p q := Reaches.letter cpt ascii few switched rfl
    have rest : Reaches utf8_mode q { q with cpt := more, isrc := q.isrc + name.length } :=
      ih (fun other member => alnum other (List.mem_cons_of_mem ch member))
        inName few rfl
    have total : q.isrc + name.length = p.isrc + (ch :: name).length := by
      rw [List.length_cons]
      exact Nat.add_right_comm p.isrc 1 name.length
    rw [total] at rest
    exact step.trans rest

/-- The machine behind the name. -/
theorem Reaches.name {name : List UInt8} (valid : ValidName name) (more : List UInt8) :
    Reaches utf8_mode
      ⟨.before_name, Ascii.caret :: (name ++ more), 0, -1, 0, 0, 0, false, 0, 0, [], []⟩
      ⟨.expect_next_letter_of_name, more, name.length + 1, -1, 0, 0, 0, false, 0, 0, [1], []⟩ := by
  obtain ⟨first, rest, rfl, initial, alnum⟩ := valid.shape
  let p : NameParse :=
    ⟨.before_name, Ascii.caret :: (first :: rest ++ more), 0, -1, 0, 0, 0, false, 0, 0, [], []⟩
  let q : NameParse :=
    ⟨.check_for_environment, first :: rest ++ more, 1, -1, 0, 0, 0, false, 0, 0, [], []⟩
  let r : NameParse :=
    ⟨.expect_next_letter_of_name, rest ++ more, 2, -1, 0, 0, 0, false, 0, 0, [1], []⟩
  have none : (-1 : Int) ≤ MAX_GVSUBSCRIPTS := by decide
  have caret : Reaches utf8_mode p q :=
    Reaches.letter (show p.cpt = _ from rfl) (by decide) none rfl rfl
  have ascii : first < 0x80 := by
    rcases initial with rfl | alpha
    · decide
    · exact (isAlnum_ascii (by rw [isAlnum, alpha]; rfl)).1
  have letter : Reaches utf8_mode q r := by
    have switched : q.switch = some { q with
        state := .expect_next_letter_of_name, start := [1] } := by
      have here : q.letter = first := rfl
      rw [switch]
      change (if q.letter = Ascii.percent ∨ isAlpha q.letter = true then q.startName else _) = _
      rw [here, if_pos initial, startName, here, if_pos initial]
      rfl
    exact Reaches.letter rfl ascii none switched rfl
  have letters : Reaches utf8_mode r { r with cpt := more, isrc := r.isrc + rest.length } :=
    Reaches.letters alnum rfl none rfl
  have total : r.isrc + rest.length = (first :: rest).length + 1 := by
    rw [List.length_cons]
    change 2 + rest.length = _
    omega
  rw [total] at letters
  exact (caret.trans letter).trans letters

end NameParse

open NameParse in
/-- The text of a key is a reference with the components it was printed from. -/
theorem parse_keyText {utf8_mode : Bool} {name : List UInt8} (valid : ValidName name)
    {ss : List Subscript} {items : List (List UInt8)}
    (printed : List.Forall₂ Subscript.Printed ss items)
    (encoded : ∀ s ∈ ss, Encoded utf8_mode s) (few : items.length ≤ MAX_GVSUBSCRIPTS) :
    parse_gv_name_and_subscripts utf8_mode (keyText name items) =
      some ⟨items.length, 1 :: (bounds (name.length + 2) items).map Prod.fst,
        (name.length + 1) :: (bounds (name.length + 2) items).map Prod.snd, 0⟩ := by
  have global : (keyText name items).getD 0 0 = Ascii.caret := rfl
  rw [parse_gv_name_and_subscripts, global, if_pos rfl]
  let more := if items = [] then [] else Ascii.open_paren :: listText items
  let p : NameParse := ⟨.before_name, keyText name items, 0, -1, 0, 0, 0, false, 0, 0, [], []⟩
  let q : NameParse :=
    ⟨.expect_next_letter_of_name, more, name.length + 1, -1, 0, 0, 0, false, 0, 0, [1], []⟩
  have named : Reaches utf8_mode p q := Reaches.name valid more
  by_cases none : items = []
  · subst none
    have finished : run utf8_mode MAX_GVSUBSCRIPTS (keyText name []).length p = some q :=
      named.finish rfl
    rw [finished]
    rfl
  · let r : NameParse :=
      ⟨.dispatch_for_starting_component, listText items, name.length + 2, 0, 0,
        Ascii.close_paren, 1, false, 0, 0, [1], [name.length + 1]⟩
    have opened : Reaches utf8_mode q r := by
      have text : q.cpt = Ascii.open_paren :: listText items := if_neg none
      have switched : q.switch = some { q with
          term := Ascii.close_paren, envpart := 1, subs_count := 0
          state := .dispatch_for_starting_component
          stop := [name.length + 1] } := by
        have letter : q.letter = Ascii.open_paren := by rw [NameParse.letter, text]; rfl
        rw [switch]
        change q.nextLetterOfName = _
        rw [nextLetterOfName, if_pos letter]
        rfl
      have unbegun : q.subs_count ≤ MAX_GVSUBSCRIPTS := show (-1 : Int) ≤ _ by decide
      exact Reaches.letter text (by decide) unbegun switched rfl
    have listed : ∃ s, Reaches utf8_mode r s ∧ s.state = .end_of_processing ∧ s.cpt = [] ∧
        s.subs_count = r.subs_count + items.length ∧ s.contains_env = r.contains_env ∧
        s.start = r.start ++ (bounds r.isrc items).map Prod.fst ∧
        s.stop = r.stop ++ (bounds r.isrc items).map Prod.snd :=
      Reaches.list printed encoded none rfl rfl rfl (by change (0 : Int) + _ ≤ _; omega) rfl
    obtain ⟨s, behind, state, ended, count, env, start, stop⟩ := listed
    have finished : run utf8_mode MAX_GVSUBSCRIPTS (keyText name items).length p = some s :=
      ((named.trans opened).trans behind).finish ended
    rw [finished]
    change (if s.state = .end_of_processing then _ else _) = _
    rw [if_pos state, count, env, start, stop]
    simp [r]

end Ydb
