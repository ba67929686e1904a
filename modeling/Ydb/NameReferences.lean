import Ydb.NameSubscripts

/-!
# References

The texts of variables that `parse_gv_name_and_subscripts` takes. Every right reference
is taken, and its parts are delimited exactly; what is taken otherwise has one of the
malformed parts of the grammar, or a list that is too long and whose last subscript is
a zero.
-/

namespace Ydb

open Lib

/-- Subscripts separated by commas. -/
abbrev separated (subs : List (List UInt8)) : List UInt8 := [Ascii.comma].intercalate subs

theorem separated_cons {w : List UInt8} {subs : List (List UInt8)} (more : subs ≠ []) :
    separated (w :: subs) = w ++ Ascii.comma :: separated subs := by
  rw [separated, List.intercalate_cons_of_ne_nil more, List.append_assoc]
  rfl

/-- One of the marks fits. -/
def Passing (utf8_mode : Bool) (w : List UInt8) : Prop := ∃ always, PassesComponent utf8_mode always w

namespace NameContext

/-- Inside a list of subscripts. -/
structure InSubscripts (ctx : NameContext) : Prop where
  term : ctx.term = Ascii.close_paren
  envpart : ctx.envpart = 1
  nonneg : 0 ≤ ctx.subs_count

theorem InSubscripts.sane {ctx : NameContext} (inside : ctx.InSubscripts) : ctx.Sane :=
  ⟨.inl inside.term⟩

/-- A subscript noted. -/
def subscript (ctx : NameContext) (isrc stop : Nat) : NameContext :=
  { ctx with
    subs_count := ctx.subs_count + 1
    start := ctx.start ++ [isrc]
    stop := ctx.stop ++ [stop] }

theorem InSubscripts.subscript {ctx : NameContext} (inside : ctx.InSubscripts) (isrc stop : Nat) :
    (ctx.subscript isrc stop).InSubscripts :=
  ⟨inside.term, inside.envpart, Int.le_add_one inside.nonneg⟩

theorem opened_subscript {ctx : NameContext} (inside : ctx.InSubscripts) (isrc : Nat) :
    ctx.opened isrc =
      { ctx with subs_count := ctx.subs_count + 1, start := ctx.start ++ [isrc] } := by
  unfold opened
  dsimp only
  rw [if_pos inside.term, if_pos (.inr inside.envpart)]

theorem noted_subscript {ctx : NameContext} (inside : ctx.InSubscripts) (isrc stop : Nat)
    (always : Bool) : (ctx.opened isrc).noted always stop = ctx.subscript isrc stop := by
  rw [opened_subscript inside, noted, if_pos (.inr (.inr inside.envpart))]
  rfl

end NameContext

namespace NameParse

variable {utf8_mode : Bool} {subs_max : Nat} {ctx : NameContext}

/-- What is noted of a list of subscripts that starts at `isrc`. -/
def listed (ctx : NameContext) (isrc : Nat) (subs : List (List UInt8)) : NameComponents :=
  ⟨(ctx.subs_count + subs.length).toNat, ctx.start ++ (bounds isrc subs).map Prod.fst,
    ctx.stop ++ (bounds isrc subs).map Prod.snd, ctx.contains_env⟩

theorem listed_cons (ctx : NameContext) (isrc : Nat) (w : List UInt8) (subs : List (List UInt8)) :
    listed ctx isrc (w :: subs) =
      listed (ctx.subscript isrc (isrc + w.length)) (isrc + w.length + 1) subs := by
  simp only [listed, NameContext.subscript, bounds, List.map_cons, List.append_assoc,
    List.singleton_append, List.length_cons, Nat.cast_add, Nat.cast_one]
  congr 2
  omega

/-- A list that the parser takes: it is short enough and nothing stands behind it, or it is one too
long and its last subscript is a zero. -/
def Bounded (count : Int) (subs_max : Nat) (subs : List (List UInt8)) (rest : List UInt8) : Prop :=
  count + subs.length ≤ subs_max ∧ rest = [] ∨
    count + subs.length = subs_max + 1 ∧ subs.getLast? = some [Ascii.zero]

/-- The parser behind a zero that is one subscript too many. -/
theorem verdict_last_zero (inside : ctx.InSubscripts) (many : ctx.subs_count = subs_max)
    (rest : List UInt8) (isrc : Nat) (instring : Bool) (point : Nat) (previous : UInt8) :
    (at_ ctx .dispatch_for_starting_component (Ascii.zero :: Ascii.close_paren :: rest) isrc instring
      point previous).verdict utf8_mode subs_max = some (listed ctx isrc [[Ascii.zero]]) := by
  have few : ctx.subs_count ≤ subs_max := le_of_eq many
  have room : ctx.envpart ≤ 1 := le_of_eq inside.envpart
  have separates : (ctx.opened isrc).Separates Ascii.close_paren := by
    rw [NameContext.opened_subscript inside]
    exact .inr inside.term.symm
  have turn := (switch_dispatch_at room (Ascii.zero :: Ascii.close_paren :: rest) isrc instring point
    previous).trans (componentKind_zero (inside.sane.opened isrc) separates rest isrc previous)
  rw [NameContext.noted_subscript inside, NameContext.after, NameContext.opened_term, inside.term,
    if_neg (by decide), if_pos rfl] at turn
  rw [verdict_turn (List.cons_ne_nil _ _) few turn rfl (by decide)]
  have beyond : ¬ (ctx.subscript isrc (isrc + 1)).subs_count ≤ subs_max := by
    show ¬ ctx.subs_count + 1 ≤ subs_max
    omega
  refine (verdict_over beyond).trans ?_
  simp [accept, at_, listed, bounds, NameContext.subscript]

/-- The parser at the end of a list of subscripts. -/
theorem verdict_subscripts (inside : ctx.InSubscripts) {subs : List (List UInt8)} (some : subs ≠ [])
    (passing : ∀ w ∈ subs, Passing utf8_mode w) {rest : List UInt8}
    (bounded : Bounded ctx.subs_count subs_max subs rest) (isrc : Nat) (instring : Bool) (point : Nat)
    (previous : UInt8) :
    (at_ ctx .dispatch_for_starting_component (separated subs ++ Ascii.close_paren :: rest) isrc instring
      point previous).verdict utf8_mode subs_max = .some (listed ctx isrc subs) := by
  induction subs generalizing ctx isrc instring point previous with
  | nil => exact absurd rfl some
  | cons w subs ih =>
    obtain ⟨⟨always, component⟩, passing⟩ := List.forall_mem_cons.mp passing
    have room : ctx.envpart ≤ 1 := le_of_eq inside.envpart
    have opened : (ctx.opened isrc).subs_count = ctx.subs_count + 1 := by
      rw [NameContext.opened_subscript inside]
    cases subs with
    | nil =>
      rw [separated, List.intercalate_singleton]
      rcases bounded with ⟨few, rfl⟩ | ⟨many, zero⟩
      · have allowed : (ctx.opened isrc).subs_count ≤ subs_max := by
          rw [opened]
          simpa using few
        obtain ⟨instring', point', previous', ended⟩ := verdict_component (by omega) room inside.sane
          component (.inr inside.term.symm) [] isrc allowed instring point previous
        rw [NameContext.noted_subscript inside, NameContext.after, NameContext.opened_term,
          inside.term, if_neg (by decide), if_pos rfl] at ended
        rw [listed_cons]
        refine ended.trans ((verdict_end rfl).trans ?_)
        simp [accept, at_, listed, bounds]
      · obtain rfl : w = [Ascii.zero] := by simpa using zero
        have last : ctx.subs_count = subs_max := by
          rw [List.length_singleton] at many
          omega
        exact verdict_last_zero inside last rest isrc instring point previous
    | cons next subs =>
      have allowed : (ctx.opened isrc).subs_count ≤ subs_max := by
        rw [opened]
        rcases bounded with ⟨few, _⟩ | ⟨many, _⟩
        · rw [List.length_cons, List.length_cons] at few
          omega
        · rw [List.length_cons, List.length_cons] at many
          omega
      obtain ⟨instring', point', previous', ended⟩ := verdict_component (by omega) room inside.sane
        component (.inl rfl) (separated (next :: subs) ++ Ascii.close_paren :: rest) isrc allowed
        instring point previous
      rw [NameContext.noted_subscript inside, NameContext.after, if_pos rfl] at ended
      rw [listed_cons, separated_cons (List.cons_ne_nil _ _), List.append_assoc, List.cons_append]
      refine ended.trans ?_
      apply ih (inside.subscript isrc _) (List.cons_ne_nil _ _) passing
      have order : ctx.subs_count + ((w :: next :: subs).length : Int) =
          (ctx.subscript isrc (isrc + w.length)).subs_count + ((next :: subs).length : Int) := by
        show _ = ctx.subs_count + 1 + _
        rw [List.length_cons]
        omega
      unfold Bounded at bounded ⊢
      rw [order, List.getLast?_cons_cons] at bounded
      exact bounded

variable (utf8_mode) in
/-- A text where a subscript should start is refused unless it is a list of subscripts.
A list that is one too long is taken when its last subscript is a zero; the text behind
it is not looked at. -/
theorem subscripts_cases (inside : ctx.InSubscripts) (few : ctx.subs_count ≤ subs_max)
    (text : List UInt8) (isrc : Nat) (instring : Bool) (point : Nat) (previous : UInt8) :
    (at_ ctx .dispatch_for_starting_component text isrc instring point previous).verdict utf8_mode
      subs_max = none ∨
    ∃ subs rest, subs ≠ [] ∧ (∀ w ∈ subs, Passing utf8_mode w) ∧
      text = separated subs ++ Ascii.close_paren :: rest ∧
      (ctx.subs_count + subs.length ≤ subs_max ∧ rest = [] ∨
        ctx.subs_count + subs.length = subs_max + 1 ∧ subs.getLast? = some [Ascii.zero]) := by
  induction length : text.length using Nat.strong_induction_on
    generalizing ctx text isrc instring point previous with
  | _ n ih =>
    have room : ctx.envpart ≤ 1 := le_of_eq inside.envpart
    have count : (ctx.opened isrc).subs_count = ctx.subs_count + 1 := by
      rw [NameContext.opened_subscript inside]
    rcases component_cases utf8_mode few room inside.sane text isrc instring point previous with
      refused | ⟨allowed, always, w, sep, rest, component, separates, rfl⟩ | ⟨beyond, rest, rfl⟩
    · exact .inl refused
    · obtain ⟨instring', point', previous', ended⟩ := verdict_component few room inside.sane component
        separates rest isrc allowed instring point previous
      rw [NameContext.noted_subscript inside] at ended
      rw [ended, count] at *
      rcases separates with rfl | rfl
      · rw [NameContext.after, if_pos rfl]
        refine (ih rest.length (by simp [← length]; omega)
          (inside.subscript isrc (isrc + w.length)) allowed rest (isrc + w.length + 1) instring' point'
          previous' rfl).imp_right ?_
        rintro ⟨subs, tail, some, passing, rfl, bound⟩
        refine ⟨w :: subs, tail, List.cons_ne_nil _ _,
          List.forall_mem_cons.mpr ⟨⟨always, component⟩, passing⟩, ?_, ?_⟩
        · rw [separated_cons some, List.append_assoc, List.cons_append]
        · rw [List.length_cons, List.getLast?_cons_of_ne_nil some, Nat.cast_add, Nat.cast_one]
          have order : ctx.subs_count + 1 + (subs.length : Int) =
            ctx.subs_count + ((subs.length : Int) + 1) := by omega
          rw [← order]
          exact bound
      · rw [NameContext.after, NameContext.opened_term, inside.term, if_neg (by decide), if_pos rfl]
        cases rest with
        | nil =>
          exact .inr ⟨[w], [], List.cons_ne_nil _ _, by
            simpa using ⟨always, component⟩, by simp, .inl ⟨by simpa using allowed, rfl⟩⟩
        | cons ch rest => exact .inl (verdict_refused (List.cons_ne_nil _ _) allowed rfl)
    · refine .inr ⟨[[Ascii.zero]], rest, List.cons_ne_nil _ _, ?_, rfl, .inr ⟨?_, rfl⟩⟩
      · intro w member
        rw [List.mem_singleton.mp member]
        exact ⟨true, .zero⟩
      · rw [count] at beyond
        rw [List.length_singleton, Nat.cast_one]
        omega

/-! ## Names -/

/-- The context behind the parenthesis of a list of subscripts. -/
def Opens (ctx : NameContext) (isrc : Nat) : NameContext :=
  { ctx with term := Ascii.close_paren, envpart := 1, subs_count := 0, stop := ctx.stop ++ [isrc] }

section Name

variable (few : ctx.subs_count ≤ subs_max)

include few

/-- The parser behind the letters of a name. -/
theorem verdict_letters {letters : List UInt8} (alnum : ∀ ch ∈ letters, isAlnum ch = true)
    (tail : List UInt8) (isrc : Nat) (instring : Bool) (point : Nat) (previous : UInt8) :
    (at_ ctx .expect_next_letter_of_name (letters ++ tail) isrc instring point previous).verdict
      utf8_mode subs_max =
      (at_ ctx .expect_next_letter_of_name tail (isrc + letters.length) instring point
        previous).verdict utf8_mode subs_max := by
  induction letters generalizing isrc with
  | nil => rfl
  | cons ch letters ih =>
    obtain ⟨here, alnum⟩ := List.forall_mem_cons.mp alnum
    obtain ⟨ascii, notParen⟩ := isAlnum_ascii here
    have turn : (at_ ctx .expect_next_letter_of_name (ch :: (letters ++ tail)) isrc instring point
        previous).switch = some (at_ ctx .expect_next_letter_of_name (ch :: (letters ++ tail)) isrc
          instring point previous) := by
      show (if ch = Ascii.open_paren then _ else if isAlnum ch = true then _ else _) = _
      rw [if_neg notParen, if_pos here]
    rw [List.cons_append, verdict_turn (List.cons_ne_nil _ _) few turn rfl ascii, List.length_cons,
      Nat.add_comm letters.length, ← Nat.add_assoc]
    exact ih alnum (isrc + 1)

theorem verdict_paren (tail : List UInt8) (isrc : Nat) (instring : Bool) (point : Nat)
    (previous : UInt8) :
    (at_ ctx .expect_next_letter_of_name (Ascii.open_paren :: tail) isrc instring point
      previous).verdict utf8_mode subs_max =
      (at_ (Opens ctx isrc) .dispatch_for_starting_component tail (isrc + 1) instring point
        previous).verdict utf8_mode subs_max := by
  have turn : (at_ ctx .expect_next_letter_of_name (Ascii.open_paren :: tail) isrc instring point
      previous).switch = some (at_ (Opens ctx isrc) .dispatch_for_starting_component
        (Ascii.open_paren :: tail) isrc instring point previous) := rfl
  exact verdict_turn (List.cons_ne_nil _ _) few turn rfl (by decide)

variable (utf8_mode) in
/-- A text behind the first letter of a name is refused unless letters stand in front,
and behind them the end or a parenthesis. -/
theorem letters_cases (text : List UInt8) (isrc : Nat) (instring : Bool) (point : Nat)
    (previous : UInt8) :
    (at_ ctx .expect_next_letter_of_name text isrc instring point previous).verdict utf8_mode
      subs_max = none ∨
    ∃ letters tail, (∀ ch ∈ letters, isAlnum ch = true) ∧ text = letters ++ tail ∧
      (tail = [] ∨ ∃ rest, tail = Ascii.open_paren :: rest) := by
  induction text generalizing isrc with
  | nil => exact .inr ⟨[], [], fun _ member => absurd member List.not_mem_nil, rfl, .inl rfl⟩
  | cons ch text ih =>
    by_cases paren : ch = Ascii.open_paren
    · subst paren
      exact .inr ⟨[], Ascii.open_paren :: text, fun _ member => absurd member List.not_mem_nil, rfl,
        .inr ⟨text, rfl⟩⟩
    by_cases alnum : isAlnum ch = true
    · have turn : (at_ ctx .expect_next_letter_of_name (ch :: text) isrc instring point
          previous).switch = some (at_ ctx .expect_next_letter_of_name (ch :: text) isrc instring point
            previous) := by
        show (if ch = Ascii.open_paren then _ else if isAlnum ch = true then _ else _) = _
        rw [if_neg paren, if_pos alnum]
      rw [verdict_turn (List.cons_ne_nil _ _) few turn rfl (isAlnum_ascii alnum).1]
      refine (ih (isrc + 1)).imp_right ?_
      rintro ⟨letters, tail, all, rfl, behind⟩
      exact ⟨ch :: letters, tail, List.forall_mem_cons.mpr ⟨alnum, all⟩, rfl, behind⟩
    · refine .inl (verdict_refused (List.cons_ne_nil _ _) few ?_)
      show (if ch = Ascii.open_paren then _ else if isAlnum ch = true then _ else none) = none
      rw [if_neg paren, if_neg alnum]

end Name

/-- The states in which a name may start. -/
def NameStart (state : NameState) : Prop :=
  state = .before_name ∨ state = .check_for_environment ∨ state = .expect_first_letter_of_name

theorem initial_plain {first : UInt8} (initial : first = Ascii.percent ∨ isAlpha first = true) :
    first < 0x80 ∧ first ≠ Ascii.caret := by
  rcases initial with rfl | alpha
  · decide
  · constructor
    · exact (isAlnum_ascii (by rw [isAlnum, alpha]; rfl)).1
    · rintro rfl
      exact absurd alpha (by decide)

/-- The context behind the first letter of a name. -/
def named (ctx : NameContext) (isrc : Nat) : NameContext := { ctx with start := ctx.start ++ [isrc] }

theorem startName_at {state : NameState} {first : UInt8}
    (initial : first = Ascii.percent ∨ isAlpha first = true) (rest : List UInt8) (isrc : Nat)
    (instring : Bool) (point : Nat) (previous : UInt8) :
    (at_ ctx state (first :: rest) isrc instring point previous).startName =
      some (at_ (named ctx isrc) .expect_next_letter_of_name (first :: rest) isrc instring point
        previous) := if_pos initial

theorem switch_name (ctx : NameContext) {state : NameState} (starts : NameStart state) {first : UInt8}
    (initial : first = Ascii.percent ∨ isAlpha first = true) (rest : List UInt8) (isrc : Nat)
    (instring : Bool) (point : Nat) (previous : UInt8) :
    (at_ ctx state (first :: rest) isrc instring point previous).switch =
      some (at_ (named ctx isrc) .expect_next_letter_of_name (first :: rest) isrc instring point
        previous) := by
  rcases starts with rfl | rfl | rfl
  · show (if first = Ascii.caret then _ else _) = _
    rw [if_neg (initial_plain initial).2]
    exact startName_at initial rest isrc instring point previous
  · show (if first = Ascii.percent ∨ isAlpha first = true then _ else _) = _
    rw [if_pos initial]
    exact startName_at initial rest isrc instring point previous
  · exact startName_at initial rest isrc instring point previous

/-- The list of subscripts with its parentheses. -/
def subsText (subs : List (List UInt8)) : List UInt8 :=
  if subs = [] then [] else Ascii.open_paren :: (separated subs ++ [Ascii.close_paren])

/-- What is noted of a name at `isrc` and its subscripts. -/
def nameNoted (ctx : NameContext) (isrc : Nat) (name : List UInt8) (subs : List (List UInt8)) :
    NameComponents :=
  listed (Opens (named ctx isrc) (isrc + name.length)) (isrc + name.length + 1) subs

theorem inSubscripts_opens (ctx : NameContext) (isrc : Nat) : (Opens ctx isrc).InSubscripts :=
  ⟨rfl, rfl, le_rfl⟩

section Whole

variable {state : NameState} (starts : NameStart state) (few : ctx.subs_count ≤ subs_max)

include starts few

/-- The parser at the end of a name with its subscripts. -/
theorem verdict_name {name : List UInt8} (valid : ValidName name) {subs : List (List UInt8)}
    (passing : ∀ w ∈ subs, Passing utf8_mode w) {rest : List UInt8}
    (bounded : Bounded 0 subs_max subs rest) (isrc : Nat) (instring : Bool) (point : Nat)
    (previous : UInt8) :
    (at_ ctx state (name ++ (subsText subs ++ rest)) isrc instring point previous).verdict utf8_mode
      subs_max = some (nameNoted ctx isrc name subs) := by
  obtain ⟨first, letters, rfl, initial, alnum⟩ := valid.shape
  have turn := switch_name ctx starts initial (letters ++ (subsText subs ++ rest)) isrc instring point
    previous
  have position : isrc + 1 + letters.length = isrc + (first :: letters).length := by
    rw [List.length_cons]
    omega
  rw [List.cons_append, verdict_turn (List.cons_ne_nil _ _) few turn rfl (initial_plain initial).1]
  have few' : (named ctx isrc).subs_count ≤ subs_max := few
  refine (verdict_letters few' alnum _ (isrc + 1) instring point previous).trans ?_
  rw [position]
  by_cases none : subs = []
  · subst none
    obtain rfl : rest = [] := by
      rcases bounded with ⟨_, empty⟩ | ⟨_, zero⟩
      · exact empty
      · simp at zero
    refine (verdict_end rfl).trans ?_
    simp [accept, at_, nameNoted, listed, Opens, named, bounds]
  · rw [subsText, if_neg none, List.cons_append, List.append_assoc, List.singleton_append,
      verdict_paren few']
    exact verdict_subscripts (inSubscripts_opens _ _) none passing bounded _ _ _ _

/-- A text where a name should start is refused unless it is a name with subscripts. -/
theorem name_cases {ch : UInt8} {text : List UInt8} (isrc : Nat) (instring : Bool) (point : Nat)
    (previous : UInt8)
    (other : ¬ (ch = Ascii.percent ∨ isAlpha ch = true) →
      (at_ ctx state (ch :: text) isrc instring point previous).switch = none) :
    (at_ ctx state (ch :: text) isrc instring point previous).verdict utf8_mode subs_max = none ∨
    ∃ name subs rest, ValidName name ∧ (∀ w ∈ subs, Passing utf8_mode w) ∧
      ch :: text = name ++ (subsText subs ++ rest) ∧
      (subs.length ≤ subs_max ∧ rest = [] ∨
        subs.length = subs_max + 1 ∧ subs.getLast? = some [Ascii.zero]) := by
  by_cases initial : ch = Ascii.percent ∨ isAlpha ch = true
  · have turn := switch_name ctx starts initial text isrc instring point previous
    rw [verdict_turn (List.cons_ne_nil _ _) few turn rfl (initial_plain initial).1]
    have few' : (named ctx isrc).subs_count ≤ subs_max := few
    rcases letters_cases utf8_mode few' text (isrc + 1) instring point previous with
      refused | ⟨letters, tail, alnum, rfl, behind⟩
    · exact .inl refused
    have valid : ValidName (ch :: letters) := ⟨ch, letters, rfl, initial, alnum⟩
    rcases behind with rfl | ⟨rest, rfl⟩
    · exact .inr ⟨ch :: letters, [], [], valid, fun _ member => absurd member List.not_mem_nil, rfl,
        .inl ⟨Nat.zero_le _, rfl⟩⟩
    · refine (subscripts_cases utf8_mode
        (inSubscripts_opens (named ctx isrc) (isrc + 1 + letters.length)) (Nat.cast_nonneg subs_max)
        rest (isrc + 1 + letters.length + 1) instring point previous).imp
        (fun refused => (verdict_letters few' alnum _ (isrc + 1) instring point previous).trans
          ((verdict_paren few' rest _ instring point previous).trans refused)) ?_
      rintro ⟨subs, tail, some, passing, rfl, bound⟩
      refine ⟨ch :: letters, subs, tail, valid, passing, ?_, ?_⟩
      · rw [subsText, if_neg some]
        simp
      · have count : (Opens (named ctx isrc) (isrc + 1 + letters.length)).subs_count = 0 := rfl
        rw [count, zero_add] at bound
        exact bound.imp (fun short => ⟨by omega, short.2⟩) fun long => ⟨by omega, long.2⟩
  · exact .inl (verdict_refused (List.cons_ne_nil _ _) few (other initial))

end Whole

/-! ## Environments -/

/-- The context behind the character that opens an environment. -/
def envContext (term : UInt8) : NameContext := ⟨-1, 1, term, 0, [], []⟩

/-- The context behind an environment whose first component stops at `stop`. -/
def envBehind (term : UInt8) (envpart stop : Nat) (extra : List Nat) : NameContext :=
  ⟨-1, 1, term, envpart, [2], stop :: extra⟩

/-- One or two components, with the stop that the second adds. -/
inductive EnvPassed (utf8_mode : Bool) : List (List UInt8) → List Nat → Prop
  | one {w : List UInt8} (first : Passing utf8_mode w) : EnvPassed utf8_mode [w] []
  | two {w v : List UInt8} {always : Bool} (first : Passing utf8_mode w)
      (second : PassesComponent utf8_mode always v) :
      EnvPassed utf8_mode [w, v] (if always then [2 + w.length + 1 + v.length] else [])

theorem minus_one_le (subs_max : Nat) : (-1 : Int) ≤ subs_max :=
  le_trans (by decide) (Nat.cast_nonneg subs_max)

section Environment

variable {term : UInt8} (closes : term = Ascii.bar ∨ term = Ascii.close_bracket)

include closes

theorem term_ne : term ≠ Ascii.close_paren ∧ term ≠ Ascii.comma := by
  rcases closes with rfl | rfl <;> decide

theorem opened_first : (envContext term).opened 2 = ⟨-1, 1, term, 1, [2], []⟩ := by
  rcases closes with rfl | rfl <;> rfl

theorem opened_second (stop isrc : Nat) :
    (envBehind term 1 stop []).opened isrc = envBehind term 2 stop [] := by
  rcases closes with rfl | rfl <;> rfl

omit closes in
theorem noted_second (always : Bool) (first stop : Nat) :
    (envBehind term 2 first []).noted always stop =
      envBehind term 2 first (if always then [stop] else []) := by
  unfold NameContext.noted
  cases always <;> simp [envBehind]

variable (subs_max) in
/-- The parser behind the first component of an environment. -/
theorem verdict_env_first {always : Bool} {w : List UInt8} {sep : UInt8}
    (component : PassesComponent utf8_mode always w) (separates : (envContext term).Separates sep)
    (rest : List UInt8) (instring : Bool) (point : Nat) (previous : UInt8) :
    ∃ instring' point' previous',
      (at_ (envContext term) .dispatch_for_starting_component (w ++ sep :: rest) 2 instring point
        previous).verdict utf8_mode subs_max =
      (at_ (envBehind term 1 (2 + w.length) [])
        (if sep = Ascii.comma then .dispatch_for_starting_component else .expect_first_letter_of_name)
        rest (2 + w.length + 1) instring' point' previous').verdict utf8_mode subs_max := by
  have few : (envContext term).subs_count ≤ subs_max := minus_one_le subs_max
  obtain ⟨instring', point', previous', ended⟩ := verdict_component few (Nat.zero_le 1) ⟨.inr closes⟩ component separates rest 2
    (by rw [opened_first closes]; exact few)
    instring point previous
  rw [opened_first closes, NameContext.after, if_neg (term_ne closes).1, NameContext.noted,
    if_pos (.inr (.inr rfl))] at ended
  exact ⟨instring', point', previous', ended⟩

variable (subs_max) in
/-- The parser behind the second component of an environment. -/
theorem verdict_env_second {always : Bool} {w : List UInt8} {sep : UInt8}
    (component : PassesComponent utf8_mode always w) (separates : (envContext term).Separates sep)
    (stop : Nat) (rest : List UInt8) (isrc : Nat) (instring : Bool) (point : Nat) (previous : UInt8) :
    ∃ instring' point' previous',
      (at_ (envBehind term 1 stop []) .dispatch_for_starting_component (w ++ sep :: rest) isrc
        instring point previous).verdict utf8_mode subs_max =
      (at_ (envBehind term 2 stop (if always then [isrc + w.length] else []))
        (if sep = Ascii.comma then .dispatch_for_starting_component else .expect_first_letter_of_name)
        rest (isrc + w.length + 1) instring' point' previous').verdict utf8_mode subs_max := by
  have few : (envBehind term 1 stop []).subs_count ≤ subs_max := minus_one_le subs_max
  obtain ⟨instring', point', previous', ended⟩ := verdict_component few (le_refl 1) ⟨.inr closes⟩ component separates rest isrc
    (by rw [opened_second closes]; exact few) instring point previous
  rw [opened_second closes, noted_second, NameContext.after,
    if_neg (show ¬ (envBehind term 2 stop []).term = _ from (term_ne closes).1)] at ended
  exact ⟨instring', point', previous', ended⟩

variable (subs_max) in
/-- The parser behind an environment. A second component whose end is noted in any case
adds a stop. -/
theorem verdict_environment {parts : List (List UInt8)} {extra : List Nat}
    (passed : EnvPassed utf8_mode parts extra) (rest : List UInt8) (instring : Bool) (point : Nat)
    (previous : UInt8) :
    ∃ envpart instring' point' previous',
      (at_ (envContext term) .dispatch_for_starting_component (separated parts ++ term :: rest) 2
        instring point previous).verdict utf8_mode subs_max =
      (at_ (envBehind term envpart (2 + (parts.headD []).length) extra) .expect_first_letter_of_name
        rest (2 + (separated parts).length + 1) instring' point' previous').verdict utf8_mode
          subs_max := by
  have last : (envContext term).Separates term := .inr rfl
  cases passed with
  | @one w first =>
    obtain ⟨always, component⟩ := first
    obtain ⟨instring', point', previous', ended⟩ := verdict_env_first subs_max closes component last rest
      instring point previous
    rw [if_neg (term_ne closes).2] at ended
    exact ⟨1, instring', point', previous', by rw [separated, List.intercalate_singleton]; exact ended⟩
  | @two w v always first second =>
    obtain ⟨mark, component⟩ := first
    obtain ⟨instring₁, point₁, previous₁, ended₁⟩ := verdict_env_first subs_max closes component
      (.inl rfl) (v ++ term :: rest) instring point previous
    obtain ⟨instring₂, point₂, previous₂, ended₂⟩ := verdict_env_second subs_max closes second last
      (2 + w.length) rest (2 + w.length + 1) instring₁ point₁ previous₁
    rw [if_pos rfl] at ended₁
    rw [if_neg (term_ne closes).2] at ended₂
    refine ⟨2, instring₂, point₂, previous₂, ?_⟩
    have joined : separated [w, v] = w ++ Ascii.comma :: v := by
      rw [separated_cons (List.cons_ne_nil _ _), separated, List.intercalate_singleton]
    have position : 2 + w.length + 1 + v.length = 2 + (w ++ Ascii.comma :: v).length := by
      simp only [List.length_append, List.length_cons]
      omega
    rw [joined, ← position, List.append_assoc, List.cons_append]
    exact ended₁.trans ended₂

variable (utf8_mode subs_max) in
/-- A text where an environment should start is refused unless an environment stands in
front. -/
theorem environment_cases (text : List UInt8) (instring : Bool) (point : Nat) (previous : UInt8) :
    (at_ (envContext term) .dispatch_for_starting_component text 2 instring point previous).verdict
      utf8_mode subs_max = none ∨
    ∃ parts extra rest, EnvPassed utf8_mode parts extra ∧ text = separated parts ++ term :: rest := by
  have few : (envContext term).subs_count ≤ subs_max := minus_one_le subs_max
  rcases component_cases utf8_mode few (Nat.zero_le 1) ⟨.inr closes⟩ text 2 instring point previous
    with refused | ⟨_, always, w, sep, rest, component, separates, rfl⟩ | ⟨beyond, _⟩
  · exact .inl refused
  · by_cases comma : sep = Ascii.comma
    · subst comma
      obtain ⟨instring₁, point₁, previous₁, ended₁⟩ := verdict_env_first subs_max closes component (.inl rfl)
        rest instring point previous
      rw [if_pos rfl] at ended₁
      have few₁ : (envBehind term 1 (2 + w.length) []).subs_count ≤ subs_max := minus_one_le subs_max
      rcases component_cases utf8_mode few₁ (le_refl 1) ⟨.inr closes⟩ rest (2 + w.length + 1) instring₁
        point₁ previous₁ with refused | ⟨_, mark, v, sep, tail, second, separates, rfl⟩ | ⟨beyond, _⟩
      · exact .inl (ended₁.trans refused)
      · by_cases comma : sep = Ascii.comma
        · -- a third component
          subst comma
          obtain ⟨instring₂, point₂, previous₂, ended₂⟩ := verdict_env_second subs_max closes second
            (.inl rfl) (2 + w.length) tail (2 + w.length + 1) instring₁ point₁ previous₁
          refine .inl (ended₁.trans (ended₂.trans ?_))
          rw [if_pos rfl]
          match tail with
          | [] => exact verdict_end rfl
          | ch :: tail => exact verdict_refused (List.cons_ne_nil _ _) (minus_one_le subs_max) rfl
        · obtain rfl : sep = term := separates.resolve_left comma
          refine .inr ⟨[w, v], _, tail, .two ⟨always, component⟩ second, ?_⟩
          rw [separated_cons (List.cons_ne_nil _ _), separated, List.intercalate_singleton]
          simp
      · rw [opened_second closes] at beyond
        exact absurd (minus_one_le subs_max) beyond
    · obtain rfl : sep = term := separates.resolve_left comma
      refine .inr ⟨[w], [], rest, .one ⟨always, component⟩, ?_⟩
      rw [separated, List.intercalate_singleton]
  · rw [opened_first closes] at beyond
    exact absurd (minus_one_le subs_max) beyond

end Environment

end NameParse

end Ydb
