import Ydb.KeyText

/-!
# Verdicts of the name parser

What `parse_gv_name_and_subscripts` makes of a text from a place on. Each turn of its
loop passes at least one character, so the verdict follows turn by turn. Three of the
parser's variables, `instring`, `point` and `previous`, matter inside a component only.
-/

namespace Ydb

open Lib

/-- The variables that last beyond a component. -/
structure NameContext where
  subs_count : Int
  contains_env : Nat
  term : UInt8
  envpart : Nat
  start : List Nat
  stop : List Nat

namespace NameParse

/-- The place of the parser in a context. -/
def at_ (ctx : NameContext) (state : NameState) (cpt : List UInt8) (isrc : Nat)
    (instring : Bool) (point : Nat) (previous : UInt8) : NameParse :=
  ⟨state, cpt, isrc, ctx.subs_count, ctx.contains_env, ctx.term, ctx.envpart, instring, point,
    previous, ctx.start, ctx.stop⟩

/-- The tests at the end of the text. -/
def accept (p : NameParse) : Option NameComponents :=
  if p.state = .end_of_processing then
    some ⟨p.subs_count.toNat, p.start, p.stop, p.contains_env⟩
  else if p.state = .expect_next_letter_of_name then
    some ⟨0, p.start, p.stop ++ [p.isrc], p.contains_env⟩
  else none

/-- What the parser makes of the text from a place on. -/
def verdict (utf8_mode : Bool) (subs_max : Nat) (p : NameParse) : Option NameComponents :=
  (run utf8_mode subs_max p.cpt.length p).bind accept

/-! ## Turns -/

/-- A turn stays on a character and does not go back. -/
def Stays (p q : NameParse) : Prop := q.cpt ≠ [] ∧ q.cpt.length ≤ p.cpt.length

theorem Stays.refl {p q : NameParse} (more : p.cpt ≠ []) (same : q.cpt = p.cpt) : p.Stays q :=
  ⟨same ▸ more, le_of_eq (congrArg List.length same)⟩

theorem Stays.trans {p q r : NameParse} (first : p.Stays q) (second : q.Stays r) : p.Stays r :=
  ⟨second.1, le_trans second.2 first.2⟩

/-- Moving to the next character. -/
theorem next_eq_some {p q : NameParse} : p.next = some q ↔
    ∃ ch next rest, p.cpt = ch :: next :: rest ∧
      q = { p with cpt := next :: rest, isrc := p.isrc + 1 } := by
  unfold next
  constructor
  · intro moved
    split at moved
    · cases moved
    next long =>
      rcases text : p.cpt with _ | ⟨ch, _ | ⟨next, rest⟩⟩
      · rw [text] at long
        exact absurd (Nat.zero_le 1) long
      · rw [text] at long
        exact absurd le_rfl long
      · refine ⟨ch, next, rest, rfl, ?_⟩
        rw [text] at moved
        exact (Option.some.inj moved).symm
  · rintro ⟨ch, next, rest, text, rfl⟩
    rw [if_neg (by rw [text]; simp), text]
    rfl

theorem next_stays {p q : NameParse} (moved : p.next = some q) : p.Stays q := by
  obtain ⟨ch, next, rest, text, rfl⟩ := next_eq_some.mp moved
  refine ⟨by simp, ?_⟩
  rw [text]
  exact Nat.le_succ _

theorem close_stays {p q : NameParse} (more : p.cpt ≠ []) (closed : p.close = some q) :
    p.Stays q := by
  unfold close at closed
  split at closed
  · cases closed
    exact .refl more rfl
  · split at closed
    · cases closed
      exact .refl more rfl
    · cases closed

theorem noteStop_cpt (p : NameParse) : p.noteStop.cpt = p.cpt := by
  unfold noteStop
  split <;> rfl

theorem openComponent_cpt (p : NameParse) : p.openComponent.cpt = p.cpt := by
  unfold openComponent
  dsimp only
  split <;> split <;> rfl

theorem startName_stays {p q : NameParse} (more : p.cpt ≠ []) (started : p.startName = some q) :
    p.Stays q := by
  unfold startName at started
  split at started
  · cases started
    exact .refl more rfl
  · cases started

theorem zeroComponent_stays {p q : NameParse} (zero : p.zeroComponent = some q) : p.Stays q := by
  unfold zeroComponent at zero
  obtain ⟨r, moved, rest⟩ := Option.bind_eq_some_iff.mp zero
  have stays := next_stays moved
  split at rest
  · cases rest
    exact stays
  · split at rest
    · cases rest
      exact stays
    · cases rest

theorem componentKind_stays {p q : NameParse} (more : p.cpt ≠ []) (kind : p.componentKind = some q) :
    p.Stays q := by
  unfold componentKind at kind
  split at kind
  · cases kind
    exact .refl more rfl
  · split at kind
    · cases kind
      exact .refl more rfl
    · split at kind
      · exact zeroComponent_stays kind
      · split at kind
        · cases kind
          exact .refl more rfl
        · cases kind

/-- The string is read within the text. -/
theorem inString_stays {p q : NameParse} (more : p.cpt ≠ []) (read : p.inString = some q) :
    p.Stays q := by
  unfold inString at read
  split at read
  · dsimp only at read
    split at read
    · cases read
      exact .refl more rfl
    · split at read
      · cases read
      · split at read
        · cases read
          exact .refl more rfl
        · obtain ⟨r, first, rest⟩ := Option.bind_eq_some_iff.mp read
          obtain ⟨t, second, last⟩ := Option.bind_eq_some_iff.mp rest
          have stays : r.Stays t := next_stays second
          have whole : p.Stays t := (next_stays first : Stays { p with instring := _ } r).trans stays
          split at last
          · cases last
            exact whole
          · cases last
  · split at read
    · cases read
      exact .refl more rfl
    · obtain ⟨r, closed, last⟩ := Option.bind_eq_some_iff.mp read
      cases last
      have stays := close_stays more closed
      exact ⟨by rw [noteStop_cpt]; exact stays.1, by rw [noteStop_cpt]; exact stays.2⟩

theorem inNumber_stays {p q : NameParse} (more : p.cpt ≠ []) (read : p.inNumber = some q) :
    p.Stays q := by
  unfold inNumber at read
  split at read
  · split at read
    · cases read
    · cases read
      exact .refl more rfl
  · split at read
    · split at read
      · cases read
      · cases read
        exact .refl more rfl
    · split at read
      · cases read
      · obtain ⟨r, closed, last⟩ := Option.bind_eq_some_iff.mp read
        cases last
        have stays := close_stays more closed
        exact ⟨by rw [noteStop_cpt]; exact stays.1, by rw [noteStop_cpt]; exact stays.2⟩

theorem nextLetterOfName_stays {p q : NameParse} (more : p.cpt ≠ [])
    (read : p.nextLetterOfName = some q) : p.Stays q := by
  unfold nextLetterOfName at read
  split at read
  · cases read
    exact .refl more rfl
  · split at read
    · cases read
      exact .refl more rfl
    · cases read

theorem bind_ite {α β : Type} (c : Prop) [Decidable c] (a b : Option α) (f : α → Option β) :
    (if c then a else b).bind f = if c then a.bind f else b.bind f := by
  split <;> rfl

/-- The end of the name of a function: behind the `C`, an `R` may stand before the
parenthesis, with one character between them. -/
def charFuncTail (p : NameParse) : Option NameParse :=
  (if p.letter ≠ Ascii.open_paren then
    p.next.bind fun p => if isLetter 0x52 p.letter then p.next else none
  else some p).bind fun p => if p.letter = Ascii.open_paren then some p else none

/-- The letters of $CHAR or $ZCHAR behind the first. -/
def charFuncMiddle (zchar : Bool) (p : NameParse) : Option NameParse :=
  (if isLetter Ascii.upperH p.letter then
    p.next.bind fun p =>
      if isLetter 0x41 p.letter ∨ (p.letter = Ascii.open_paren ∧ zchar) then some p else none
  else if zchar then none
  else some p).bind charFuncTail

theorem charFuncName_eq (p : NameParse) :
    p.charFuncName = (if isLetter Ascii.upperZ p.letter then p.next else some p).bind fun q =>
      if isLetter Ascii.upperC q.letter = false then none
      else q.next.bind (charFuncMiddle (isLetter Ascii.upperZ p.letter)) := by
  unfold charFuncName charFuncMiddle charFuncTail
  dsimp only
  simp only [bind_ite, Option.bind_assoc, Option.bind_eq_bind]

theorem charFuncTail_stays {p q : NameParse} (more : p.cpt ≠ []) (read : p.charFuncTail = some q) :
    p.Stays q := by
  obtain ⟨r, first, last⟩ := Option.bind_eq_some_iff.mp read
  have stays : p.Stays r := by
    split at first
    · obtain ⟨t, moved, final⟩ := Option.bind_eq_some_iff.mp first
      split at final
      · exact (next_stays moved).trans (next_stays final)
      · cases final
    · cases first
      exact .refl more rfl
  split at last
  · cases last
    exact stays
  · cases last

/-- The name of the function is read within the text. -/
theorem charFuncName_stays {p q : NameParse} (more : p.cpt ≠ []) (read : p.charFuncName = some q) :
    p.Stays q := by
  rw [charFuncName_eq] at read
  obtain ⟨p₁, first, rest⟩ := Option.bind_eq_some_iff.mp read
  have stays₁ : p.Stays p₁ := by
    split at first
    · exact next_stays first
    · cases first
      exact .refl more rfl
  split at rest
  · cases rest
  · obtain ⟨p₂, second, rest⟩ := Option.bind_eq_some_iff.mp rest
    have stays₂ := stays₁.trans (next_stays second)
    obtain ⟨p₃, third, last⟩ := Option.bind_eq_some_iff.mp rest
    have stays₃ : p.Stays p₃ := by
      split at third
      · obtain ⟨r, moved, final⟩ := Option.bind_eq_some_iff.mp third
        split at final
        · cases final
          exact stays₂.trans (next_stays moved)
        · cases final
      · split at third
        · cases third
        · cases third
          exact stays₂
    exact stays₃.trans (charFuncTail_stays stays₃.1 last)

theorem charFuncArgs_stays {cpt rest : List UInt8} {isrc isrc' : Nat}
    (read : charFuncArgs cpt isrc = some (rest, isrc')) : rest ≠ [] ∧ rest.length ≤ cpt.length := by
  fun_induction charFuncArgs cpt isrc with
  | case1 => cases read
  | case2 letter more isrc digit ih =>
    obtain ⟨some, shorter⟩ := ih read
    exact ⟨some, le_trans shorter (Nat.le_succ _)⟩
  | case3 => cases read
  | case4 =>
    cases read
    exact ⟨by simp, Nat.le_succ _⟩
  | case5 isrc letter noDigit separator next behind notParen digit ih =>
    obtain ⟨some, shorter⟩ := ih read
    refine ⟨some, ?_⟩
    rw [List.length_cons, List.length_cons]
    omega
  | case6 => cases read
  | case7 => cases read

/-- The function's call is read within the text. -/
theorem inCharFunc_stays {p q : NameParse} (more : p.cpt ≠ []) (read : p.inCharFunc = some q) :
    p.Stays q := by
  unfold inCharFunc at read
  obtain ⟨p₁, named, rest⟩ := Option.bind_eq_some_iff.mp read
  obtain ⟨⟨cpt, isrc⟩, argued, rest⟩ := Option.bind_eq_some_iff.mp rest
  obtain ⟨some, shorter⟩ := charFuncArgs_stays argued
  have stays₁ := charFuncName_stays more named
  rw [List.length_drop] at shorter
  have stays₂ : p.Stays { p₁ with cpt := cpt, isrc := isrc } :=
    ⟨some, le_trans shorter (le_trans (Nat.sub_le _ _) stays₁.2)⟩
  dsimp only at rest
  split at rest
  · obtain ⟨r, moved, last⟩ := Option.bind_eq_some_iff.mp rest
    have stays₃ := stays₂.trans (next_stays moved)
    split at last
    · cases last
      exact stays₃
    · split at last
      · cases last
        exact stays₃
      · cases last
  · obtain ⟨r, closed, last⟩ := Option.bind_eq_some_iff.mp rest
    cases last
    have stays₃ : p.Stays r := stays₂.trans (close_stays some closed)
    exact stays₃

/-- One turn of the parser stays within the text. -/
theorem switch_stays {p q : NameParse} (more : p.cpt ≠ []) (turn : p.switch = some q) :
    p.Stays q := by
  unfold switch at turn
  split at turn
  · split at turn
    · cases turn
      exact .refl more rfl
    · exact startName_stays more turn
  · split at turn
    · exact startName_stays more turn
    · split at turn
      · cases turn
        exact .refl more rfl
      · cases turn
  · unfold dispatch at turn
    split at turn
    · cases turn
    · have stays := componentKind_stays (by rw [openComponent_cpt]; exact more) turn
      exact ⟨stays.1, le_trans stays.2 (by rw [openComponent_cpt])⟩
  · exact inString_stays more turn
  · exact inNumber_stays more turn
  · exact startName_stays more turn
  · exact nextLetterOfName_stays more turn
  · exact inCharFunc_stays more turn
  · cases turn

theorem advance_shorter (utf8_mode : Bool) {q : NameParse} (more : q.cpt ≠ []) :
    (q.advance utf8_mode).cpt.length < q.cpt.length := by
  have positive := List.length_pos_iff.mpr more
  simp only [advance, List.length_drop]
  split <;> omega

/-- Turns left over change nothing. -/
theorem run_enough {utf8_mode : Bool} {subs_max : Nat} (m n : Nat) (p : NameParse)
    (first : p.cpt.length ≤ m) (second : p.cpt.length ≤ n) :
    run utf8_mode subs_max m p = run utf8_mode subs_max n p := by
  induction m generalizing n p with
  | zero =>
    have empty : p.cpt = [] := List.eq_nil_of_length_eq_zero (Nat.le_zero.mp first)
    cases n with
    | zero => rfl
    | succ n => rw [run, run, if_neg (by simp [empty])]
  | succ m ih =>
    by_cases going : p.cpt ≠ [] ∧ p.subs_count ≤ subs_max
    · cases n with
      | zero => exact absurd (List.eq_nil_of_length_eq_zero (Nat.le_zero.mp second)) going.1
      | succ n =>
        rw [run, run, if_pos going, if_pos going]
        cases turn : p.switch with
        | none => rfl
        | some q =>
          have stays := switch_stays going.1 turn
          have shorter := advance_shorter utf8_mode stays.1
          have less := stays.2
          exact ih n _ (by omega) (by omega)
    · cases n with
      | zero => rw [run, run, if_neg going]
      | succ n => rw [run, run, if_neg going, if_neg going]

section Verdict

variable {utf8_mode : Bool} {subs_max : Nat}

/-- One turn. -/
theorem verdict_step {p : NameParse} (more : p.cpt ≠ []) (few : p.subs_count ≤ subs_max) :
    p.verdict utf8_mode subs_max =
      p.switch.bind fun q => (q.advance utf8_mode).verdict utf8_mode subs_max := by
  have positive := List.length_pos_iff.mpr more
  obtain ⟨turns, length⟩ : ∃ n, p.cpt.length = n + 1 := ⟨p.cpt.length - 1, by omega⟩
  rw [verdict, length, run, if_pos ⟨more, few⟩]
  cases turn : p.switch with
  | none => rfl
  | some q =>
    have stays := switch_stays more turn
    have shorter := advance_shorter utf8_mode stays.1
    have less := stays.2
    show (run utf8_mode subs_max turns (q.advance utf8_mode)).bind accept = _
    rw [run_enough turns _ _ (by omega) le_rfl]
    rfl

/-- The end of the text. -/
theorem verdict_end {p : NameParse} (ended : p.cpt = []) :
    p.verdict utf8_mode subs_max = p.accept := by
  rw [verdict, ended]
  rfl

/-- More subscripts than are allowed end the loop. -/
theorem verdict_over {p : NameParse} (many : ¬ p.subs_count ≤ subs_max) :
    p.verdict utf8_mode subs_max = p.accept := by
  rw [verdict]
  cases p.cpt.length with
  | zero => rfl
  | succ turns =>
    rw [run, if_neg fun going => many going.2]
    rfl

end Verdict

end NameParse

end Ydb
