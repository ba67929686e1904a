import Ydb.CanonicalNumbers

/-!
# The ZWRITE form of a string

`format2zwr` writes a string as quoted segments of graphic characters and `$C`
lists of control codes, joined by underscores, with quotes doubled inside a
segment. `zwr2format` reads that form, and bare numbers besides. Both are modelled
in M character mode, where every byte is a character and none is ill-formed; the
class of control characters is whatever the current pattern table says.

The destination is long enough when it has `ZWR_EXP_RATIO` bytes. The writer
tests for room before each character, and the tests never fail there.
-/

namespace Ydb

open Lib

namespace Ascii

abbrev quote : UInt8 := 0x22
abbrev dollar : UInt8 := 0x24
abbrev open_paren : UInt8 := 0x28
abbrev close_paren : UInt8 := 0x29
abbrev comma : UInt8 := 0x2c
abbrev underscore : UInt8 := 0x5f
abbrev upperC : UInt8 := 0x43
abbrev upperH : UInt8 := 0x48
abbrev upperZ : UInt8 := 0x5a

end Ascii

def ZWR_EXP_RATIO (x : Nat) : Nat := x * 9 + 11
def MAX_ZWR_DCHAR_DIGITS : Nat := 5
def CHARMAXARGS : Nat := 256

abbrev DOLLARCH : List UInt8 := [Ascii.dollar, Ascii.upperC, Ascii.open_paren]
abbrev CLOSE_PAREN_QUOTE : List UInt8 := [Ascii.close_paren, Ascii.underscore, Ascii.quote]
abbrev CLOSE_PAREN_DOLLARCH : List UInt8 :=
  [Ascii.close_paren, Ascii.underscore, Ascii.dollar, Ascii.upperC, Ascii.open_paren]

/-! ## Writing -/

/-- The `I2A` conversion of a number below one thousand. -/
def i2a (num : Nat) : List UInt8 :=
  let n2 := num / 100 % 10
  let n1 := num / 10 % 10
  (if n2 ≠ 0 then [digitByte n2] else []) ++
    ((if n1 ≠ 0 ∨ n2 ≠ 0 then [digitByte n1] else []) ++ [digitByte (num % 10)])

/-- Where the writer is: before the first character, inside a quoted segment, or
inside a `$C` list with a count of its commas. -/
inductive ZwrState where
  | start
  | quoted
  | dollarC (ncommas : Nat)
deriving DecidableEq, Repr

/-- One character: the next state and what is written, or no room for it. -/
def format2zwrStep (isctl : Bool) (max_len dstlen : Nat) (ch : UInt8) :
    ZwrState → Option (ZwrState × List UInt8)
  | .dollarC ncommas =>
    if isctl then
      let ncommas := ncommas + 1
      if max_len > dstlen + CLOSE_PAREN_DOLLARCH.length + MAX_ZWR_DCHAR_DIGITS then
        if CHARMAXARGS = ncommas then some (.dollarC 0, CLOSE_PAREN_DOLLARCH ++ i2a ch.toNat)
        else some (.dollarC ncommas, Ascii.comma :: i2a ch.toNat)
      else none
    else if max_len > dstlen + CLOSE_PAREN_QUOTE.length + 1 + 1 then
      some (.quoted, CLOSE_PAREN_QUOTE ++ (ch :: if ch = Ascii.quote then [Ascii.quote] else []))
    else none
  | st =>
    if isctl then
      if max_len > dstlen + DOLLARCH.length + MAX_ZWR_DCHAR_DIGITS +
          (if dstlen > 0 then 2 else 0) then
        some (.dollarC 0, (if dstlen > 0 then [Ascii.quote, Ascii.underscore] else []) ++
          (DOLLARCH ++ i2a ch.toNat))
      else none
    else if max_len > dstlen + 2 + 1 then
      some (.quoted, (if st = .start then [Ascii.quote] else []) ++
        ((if ch = Ascii.quote then [Ascii.quote] else []) ++ [ch]))
    else none

/-- The loop over the source: the last state, the text, and whether room ran
out. -/
def format2zwrLoop (isctl : UInt8 → Bool) (max_len : Nat) :
    ZwrState → List UInt8 → List UInt8 → ZwrState × List UInt8 × Bool
  | st, des, [] => (st, des, false)
  | st, des, ch :: rest =>
    if max_len > des.length then
      match format2zwrStep (isctl ch) max_len des.length ch st with
      | some (next, out) => format2zwrLoop isctl max_len next (des ++ out) rest
      | none => (st, des, true)
    else (st, des, false)

/-- What closes the last segment. -/
def zwrClose : ZwrState → List UInt8
  | .start => []
  | .quoted => [Ascii.quote]
  | .dollarC _ => [Ascii.close_paren]

/-- Write `src` into a destination of `des_len` bytes: the text and whether room
ran out. -/
def format2zwr (isctl : UInt8 → Bool) (src : List UInt8) (des_len : Nat) :
    Except RtsError (List UInt8 × Bool) :=
  if src = [] then
    if des_len > 2 then .ok ([Ascii.quote, Ascii.quote], false) else .error .assertpro
  else
    let max_len := des_len - 1
    let (st, des, nospace) := format2zwrLoop isctl max_len .start [] src
    let des := if nospace then des else des ++ zwrClose st
    if max_len > des.length then .ok (des, nospace) else .error .assertpro

/-! ## Reading -/

/-- The state of the reader. A quoted segment carries the characters read since
`cpstart`. -/
inductive ZwrRead where
  | begin
  | graphic (span : List UInt8)
  | dollarC
  | dollarZCH
  | numeric
  | fraction
deriving DecidableEq, Repr

/-- `lower_to_upper_table`. -/
def lowerToUpper (ch : UInt8) : UInt8 :=
  if 0x61 ≤ ch ∧ ch ≤ 0x7a then ch - 0x20 else ch

/-- The `A2I` conversion, with the wrap of a 32-bit `int` that stops it once the
number turns negative. -/
def a2iFrom (num : Int) : List UInt8 → Int × List UInt8
  | [] => (num, [])
  | ch :: rest =>
    if 0 ≤ num ∧ isDigit ch = true then a2iFrom ((num * 10 + digitVal ch).bmod (2 ^ 32)) rest
    else (num, ch :: rest)

/-- The number at `cp`, negative if there is none. -/
def a2i (cp : List UInt8) : Int × List UInt8 :=
  let (num, rest) := a2iFrom 0 cp
  if rest.length = cp.length then (-1, rest) else (num, rest)

/-- Behind a character code: a comma goes on with the list, a parenthesis ends it
and may be followed by an underscore. -/
def zwrListEnd (st : ZwrRead) : List UInt8 → Option (ZwrRead × List UInt8)
  | ch :: cp =>
    if ch = Ascii.comma then some (st, cp)
    else if ch = Ascii.close_paren then
      match cp with
      | [] => some (.begin, [])
      | next :: after => if next = Ascii.underscore then some (.begin, after) else none
    else none
  | [] => none

/-- A character code of a `$C` or `$ZCH` list. -/
def zwrListItem (st : ZwrRead) (des cp : List UInt8) :
    Option (ZwrRead × List UInt8 × List UInt8) :=
  let (num, rest) := a2i cp
  if num < 0 ∨ num > 255 then none
  else
    match zwrListEnd st rest with
    | some (next, after) => some (next, des ++ [UInt8.ofNat num.toNat], after)
    | none => none

/-- Behind a dollar sign: `C(` or `ZCH(` in either case. -/
def zwrDollar : List UInt8 → Option (ZwrRead × List UInt8)
  | c :: cp =>
    if lowerToUpper c = Ascii.upperC then
      match cp with
      | p :: after => if p = Ascii.open_paren then some (.dollarC, after) else none
      | [] => none
    else if lowerToUpper c = Ascii.upperZ then
      match cp with
      | c₁ :: h :: p :: after =>
        if lowerToUpper c₁ = Ascii.upperC ∧ lowerToUpper h = Ascii.upperH ∧ p = Ascii.open_paren
        then some (.dollarZCH, after) else none
      | _ => none
    else none
  | [] => none

/-- One turn of the reader at a nonempty rest of the source. Text that ends where
the source reads on is taken as a mismatch. -/
def zwr2formatStep (st : ZwrRead) (des : List UInt8) (ch : UInt8) (cp : List UInt8) :
    Option (ZwrRead × List UInt8 × List UInt8) :=
  match st with
  | .begin =>
    if ch = Ascii.dollar then
      match zwrDollar cp with
      | some (next, after) => some (next, des, after)
      | none => none
    else if ch = Ascii.quote then some (.graphic [], des, cp)
    else if ch = Ascii.minus ∨ isDigit ch = true then some (.numeric, des ++ [ch], cp)
    else if ch = Ascii.dot then some (.fraction, des ++ [ch], cp)
    else none
  | .graphic span =>
    if ch = Ascii.quote then
      match cp with
      | [] => some (.graphic span, des ++ span, [])
      | next :: after =>
        if next = Ascii.quote then some (.graphic [], des ++ (span ++ [Ascii.quote]), after)
        else if next = Ascii.underscore then some (.begin, des ++ span, after)
        else none
    else some (.graphic (span ++ [ch]), des, cp)
  | .dollarC => zwrListItem .dollarC des (ch :: cp)
  | .dollarZCH => zwrListItem .dollarZCH des (ch :: cp)
  | .numeric =>
    if isDigit ch = true then some (.numeric, des ++ [ch], cp)
    else if ch = Ascii.dot then some (.fraction, des ++ [ch], cp)
    else none
  | .fraction => if isDigit ch = true then some (.fraction, des ++ [ch], cp) else none

/-- The loop of the reader. Every turn consumes text, so the length of the source
bounds the turns. -/
def zwr2formatLoop : Nat → ZwrRead → List UInt8 → List UInt8 → Option (List UInt8)
  | _, _, des, [] => some des
  | 0, _, _, _ :: _ => none
  | turns + 1, st, des, ch :: cp =>
    match zwr2formatStep st des ch cp with
    | some (next, out, after) => zwr2formatLoop turns next out after
    | none => none

/-- Read the ZWRITE form of a string; no result where the source returns false. -/
def zwr2format (src : List UInt8) : Option (List UInt8) :=
  zwr2formatLoop src.length .begin [] src

/-! ## The text that is written -/

/-- What one character writes where there is room. -/
def zwrWrite (isctl : Bool) (ch : UInt8) : ZwrState → ZwrState × List UInt8
  | .start =>
    if isctl then (.dollarC 0, DOLLARCH ++ i2a ch.toNat)
    else (.quoted, Ascii.quote :: ((if ch = Ascii.quote then [Ascii.quote] else []) ++ [ch]))
  | .quoted =>
    if isctl then
      (.dollarC 0, Ascii.quote :: Ascii.underscore :: (DOLLARCH ++ i2a ch.toNat))
    else (.quoted, (if ch = Ascii.quote then [Ascii.quote] else []) ++ [ch])
  | .dollarC ncommas =>
    if isctl then
      if CHARMAXARGS = ncommas + 1 then (.dollarC 0, CLOSE_PAREN_DOLLARCH ++ i2a ch.toNat)
      else (.dollarC (ncommas + 1), Ascii.comma :: i2a ch.toNat)
    else
      (.quoted, CLOSE_PAREN_QUOTE ++ (ch :: if ch = Ascii.quote then [Ascii.quote] else []))

/-- The whole text from a state on. -/
def zwrText (isctl : UInt8 → Bool) : ZwrState → List UInt8 → List UInt8
  | st, [] => zwrClose st
  | st, ch :: rest =>
    (zwrWrite (isctl ch) ch st).2 ++ zwrText isctl (zwrWrite (isctl ch) ch st).1 rest

/-- The state agrees with the text written so far. -/
def ZwrState.Fits (st : ZwrState) (dstlen : Nat) : Prop := st = .start ↔ dstlen = 0

theorem i2a_length (num : Nat) : 1 ≤ (i2a num).length ∧ (i2a num).length ≤ 3 := by
  rw [i2a]
  split <;> split <;> simp

theorem zwrWrite_length (isctl : Bool) (ch : UInt8) (st : ZwrState) :
    1 ≤ (zwrWrite isctl ch st).2.length ∧ (zwrWrite isctl ch st).2.length ≤ 8 ∧
      (zwrWrite isctl ch st).1 ≠ .start := by
  have digits := i2a_length ch.toNat
  have doubled : (if ch = Ascii.quote then [Ascii.quote] else []).length ≤ 1 := by
    split <;> simp
  cases isctl with
  | false =>
    cases st <;>
      simp only [zwrWrite, Bool.false_eq_true, if_false, List.length_append, List.length_cons,
        List.length_nil] <;>
      exact ⟨by omega, by omega, by simp⟩
  | true =>
    cases st with
    | start =>
      simp only [zwrWrite, if_true, List.length_append, List.length_cons, List.length_nil]
      exact ⟨by omega, by omega, by simp⟩
    | quoted =>
      simp only [zwrWrite, if_true, List.length_append, List.length_cons, List.length_nil]
      exact ⟨by omega, by omega, by simp⟩
    | dollarC ncommas =>
      simp only [zwrWrite, if_true]
      split <;> simp only [List.length_append, List.length_cons, List.length_nil] <;>
        exact ⟨by omega, by omega, by simp⟩

/-- With room for ten more bytes the step writes its character. -/
theorem format2zwrStep_eq (isctl : Bool) (max_len dstlen : Nat) (ch : UInt8) (st : ZwrState)
    (fits : st.Fits dstlen) (room : dstlen + 10 < max_len) :
    format2zwrStep isctl max_len dstlen ch st = some (zwrWrite isctl ch st) := by
  cases st with
  | start =>
    have none : dstlen = 0 := fits.mp rfl
    subst none
    cases isctl <;> simp [format2zwrStep, zwrWrite, MAX_ZWR_DCHAR_DIGITS] <;> omega
  | quoted =>
    have some : 0 < dstlen := Nat.pos_of_ne_zero fun zero => by cases fits.mpr zero
    cases isctl <;> simp [format2zwrStep, zwrWrite, MAX_ZWR_DCHAR_DIGITS, some] <;> omega
  | dollarC ncommas =>
    cases isctl
    · simp [format2zwrStep, zwrWrite]
      omega
    · have enough : dstlen + 5 + MAX_ZWR_DCHAR_DIGITS < max_len := by
        simp only [MAX_ZWR_DCHAR_DIGITS]
        omega
      simp only [format2zwrStep, zwrWrite, if_true, List.length_cons, List.length_nil, enough]
      split <;> rfl

/-- With nine bytes for every character, and ten more, the loop writes the whole
text. -/
theorem format2zwrLoop_eq (isctl : UInt8 → Bool) (max_len : Nat) (src des : List UInt8)
    (st : ZwrState) (fits : st.Fits des.length) (room : des.length + 8 * src.length + 2 < max_len) :
    ∃ st' des', format2zwrLoop isctl max_len st des src = (st', des', false) ∧
      des' ++ zwrClose st' = des ++ zwrText isctl st src ∧
      des'.length ≤ des.length + 8 * src.length := by
  induction src generalizing st des with
  | nil => exact ⟨st, des, rfl, rfl, by simp⟩
  | cons ch rest ih =>
    obtain ⟨some, few, begun⟩ := zwrWrite_length (isctl ch) ch st
    rw [List.length_cons] at room
    obtain ⟨st', des', looped, text, length⟩ := ih
      (des ++ (zwrWrite (isctl ch) ch st).2) (zwrWrite (isctl ch) ch st).1
      (by
        rw [ZwrState.Fits, List.length_append]
        exact ⟨fun same => absurd same begun, fun none => by omega⟩)
      (by rw [List.length_append]; omega)
    refine ⟨st', des', ?_, ?_, ?_⟩
    · rw [format2zwrLoop, if_pos (by omega),
        format2zwrStep_eq (isctl ch) max_len des.length ch st fits (by omega)]
      exact looped
    · rw [text, zwrText, List.append_assoc]
    · rw [List.length_append] at length
      rw [List.length_cons]
      omega

theorem zwrText_length (isctl : UInt8 → Bool) (st : ZwrState) (src : List UInt8) :
    (zwrText isctl st src).length ≤ 8 * src.length + 1 := by
  induction src generalizing st with
  | nil => cases st <;> simp [zwrText, zwrClose]
  | cons ch rest ih =>
    have few := (zwrWrite_length (isctl ch) ch st).2.1
    have behind := ih (zwrWrite (isctl ch) ch st).1
    rw [zwrText, List.length_append, List.length_cons]
    omega

/-- The writer succeeds in a destination of `ZWR_EXP_RATIO` bytes. -/
theorem format2zwr_eq (isctl : UInt8 → Bool) (src : List UInt8) (des_len : Nat)
    (large : ZWR_EXP_RATIO src.length ≤ des_len) :
    format2zwr isctl src des_len =
      .ok (if src = [] then [Ascii.quote, Ascii.quote] else zwrText isctl .start src, false) := by
  rw [ ZWR_EXP_RATIO] at large
  rw [format2zwr]
  by_cases empty : src = []
  · rw [if_pos empty, if_pos empty, if_pos (by omega)]
  · obtain ⟨st, des, looped, text, length⟩ := format2zwrLoop_eq isctl (des_len - 1) src [] .start
      (by simp [ZwrState.Fits]) (by simp only [List.length_nil]; omega)
    have closing : (zwrClose st).length ≤ 1 := by cases st <;> simp [zwrClose]
    rw [List.length_nil] at length
    rw [List.nil_append] at text
    simp only [if_neg empty, looped, Bool.false_eq_true, if_false]
    rw [if_pos (by rw [List.length_append]; omega), text]

/-! ## Reading it back -/

/-- The digits of a written code. -/
theorem i2a_digits (num : Nat) (small : num < 1000) : ∃ ds : List Nat, ds ≠ [] ∧
    (∀ d ∈ ds, d < 10) ∧ i2a num = ds.map digitByte ∧ evalFrom 10 0 ds = num := by
  by_cases hundreds : num / 100 % 10 = 0
  · by_cases tens : num / 10 % 10 = 0
    · refine ⟨[num % 10], by simp, by simp; omega, by simp [i2a, hundreds, tens], ?_⟩
      simp only [evalFrom]
      omega
    · refine ⟨[num / 10 % 10, num % 10], by simp, by simp; omega, by simp [i2a, hundreds, tens], ?_⟩
      simp only [evalFrom]
      omega
  · refine ⟨[num / 100 % 10, num / 10 % 10, num % 10], by simp, by simp; omega,
      by simp [i2a, hundreds], ?_⟩
    simp only [evalFrom]
    omega

theorem le_evalFrom (acc : Nat) (ds : List Nat) : acc ≤ evalFrom 10 acc ds := by
  induction ds generalizing acc with
  | nil => exact le_rfl
  | cons d ds ih =>
    have further := ih (acc * 10 + d)
    rw [evalFrom]
    omega

theorem a2iFrom_run (num : Nat) (ds : List Nat) (rest : List UInt8) (bounded : ∀ d ∈ ds, d < 10)
    (stops : NoDigit rest) (small : evalFrom 10 num ds < 2 ^ 31) :
    a2iFrom num (ds.map digitByte ++ rest) = (((evalFrom 10 num ds : Nat) : Int), rest) := by
  induction ds generalizing num with
  | nil =>
    cases rest with
    | nil => rfl
    | cons c rest =>
      rw [List.map_nil, List.nil_append, a2iFrom, if_neg (by simp [stops c rest rfl])]
      rfl
  | cons d ds ih =>
    have digit : d < 10 := bounded d List.mem_cons_self
    rw [evalFrom] at small
    have next := lt_of_le_of_lt (le_evalFrom (num * 10 + d) ds) small
    have noWrap : ((num : Int) * 10 + digitVal (digitByte d)).bmod (2 ^ 32) =
        (num * 10 + d : Nat) := by
      rw [digitVal_digitByte d digit, Int.bmod_def]
      omega
    rw [List.map_cons, List.cons_append, a2iFrom,
      if_pos ⟨by omega, isDigit_digitByte d digit⟩, noWrap, evalFrom]
    exact ih _ (fun e member => bounded e (List.mem_cons_of_mem d member)) small

/-- A written code is read back. -/
theorem a2i_i2a (num : Nat) (small : num < 256) (rest : List UInt8) (stops : NoDigit rest) :
    a2i (i2a num ++ rest) = ((num : Int), rest) := by
  obtain ⟨ds, some, bounded, text, value⟩ := i2a_digits num (by omega)
  have run := a2iFrom_run 0 ds rest bounded stops (by omega)
  have length : 0 < ds.length := List.length_pos_iff.mpr some
  rw [Nat.cast_zero] at run
  rw [a2i, text, run]
  simp only [List.length_append, List.length_map, value]
  rw [if_neg (by omega)]

/-- From this point on the reader returns `out`, however many turns are left over. -/
def ZwrReads (st : ZwrRead) (des cp out : List UInt8) : Prop :=
  ∀ turns, cp.length ≤ turns → zwr2formatLoop turns st des cp = some out

theorem ZwrReads.done (st : ZwrRead) (des : List UInt8) : ZwrReads st des [] des := by
  intro turns _
  cases turns <;> rfl

/-- One turn of the reader. -/
theorem ZwrReads.step {st next : ZwrRead} {des des' cp after out : List UInt8} {ch : UInt8}
    (turn : zwr2formatStep st des ch cp = some (next, des', after))
    (shorter : after.length ≤ cp.length) (reads : ZwrReads next des' after out) :
    ZwrReads st des (ch :: cp) out := by
  intro turns enough
  rw [List.length_cons] at enough
  obtain ⟨turns, rfl⟩ : ∃ n, turns = n + 1 := ⟨turns - 1, by omega⟩
  rw [zwr2formatLoop, turn]
  exact reads turns (by omega)

/-- A code of a `$C` list, read with what stands behind it. -/
theorem ZwrReads.code {des rest after out : List UInt8} {next : ZwrRead} (ch : UInt8)
    (stops : NoDigit rest) (ends : zwrListEnd .dollarC rest = some (next, after))
    (shorter : after.length ≤ rest.length) (reads : ZwrReads next (des ++ [ch]) after out) :
    ZwrReads .dollarC des (i2a ch.toNat ++ rest) out := by
  have item : zwrListItem .dollarC des (i2a ch.toNat ++ rest) =
      some (next, des ++ [ch], after) := by
    have small := ch.toNat_lt
    rw [zwrListItem, a2i_i2a ch.toNat small rest stops]
    simp only
    rw [if_neg (by omega), ends]
    simp
  have some := (i2a_length ch.toNat).1
  have total : after.length < (i2a ch.toNat ++ rest).length := by
    rw [List.length_append]
    omega
  cases text : i2a ch.toNat ++ rest with
  | nil =>
    rw [text] at total
    simp at total
  | cons first others =>
    rw [text] at item total
    rw [List.length_cons] at total
    exact .step item (by omega) reads

theorem ZwrReads.dollar {des cp out : List UInt8} (reads : ZwrReads .dollarC des cp out) :
    ZwrReads .begin des (DOLLARCH ++ cp) out := by
  have turn : zwr2formatStep .begin des Ascii.dollar
      (Ascii.upperC :: Ascii.open_paren :: cp) = some (.dollarC, des, cp) := rfl
  exact .step turn (Nat.le_add_right _ 2) reads

theorem ZwrReads.quote {des cp out : List UInt8} (reads : ZwrReads (.graphic []) des cp out) :
    ZwrReads .begin des (Ascii.quote :: cp) out :=
  .step rfl le_rfl reads

/-- A graphic character inside a quoted segment, doubled if it is a quote. -/
theorem ZwrReads.character {span des cp : List UInt8} (ch : UInt8) (src : List UInt8)
    (reads : ∀ span des, ZwrReads (.graphic span) des cp (des ++ (span ++ src))) :
    ZwrReads (.graphic span) des ((if ch = Ascii.quote then [Ascii.quote] else []) ++ ch :: cp)
      (des ++ (span ++ ch :: src)) := by
  by_cases quote : ch = Ascii.quote
  · subst quote
    have turn : zwr2formatStep (.graphic span) des Ascii.quote (Ascii.quote :: cp) =
        some (.graphic [], des ++ (span ++ [Ascii.quote]), cp) := rfl
    refine .step turn (by simp) ?_
    have behind := reads [] (des ++ (span ++ [Ascii.quote]))
    simpa using behind
  · have turn : zwr2formatStep (.graphic span) des ch cp =
        some (.graphic (span ++ [ch]), des, cp) := by
      simp [zwr2formatStep, quote]
    rw [if_neg quote]
    refine .step turn le_rfl ?_
    have behind := reads (span ++ [ch]) des
    simpa using behind

/-- The reader follows the writer: inside a quoted segment, and inside a `$C` list
at a code. By induction on the characters still to be written, for both places at
once. -/
theorem zwrText_reads (isctl : UInt8 → Bool) (src : List UInt8) :
    (∀ span des, ZwrReads (.graphic span) des (zwrText isctl .quoted src)
        (des ++ (span ++ src))) ∧
      (∀ ncommas ch des, ZwrReads .dollarC des
        (i2a ch.toNat ++ zwrText isctl (.dollarC ncommas) src) (des ++ ch :: src)) := by
  have noDigit : ∀ (c : UInt8) (cp : List UInt8), isDigit c = false → NoDigit (c :: cp) := by
    intro c cp stops first rest same
    cases same
    exact stops
  induction src with
  | nil =>
    constructor
    · intro span des
      have turn : zwr2formatStep (.graphic span) des Ascii.quote [] =
          some (.graphic span, des ++ span, []) := rfl
      rw [List.append_nil]
      exact .step turn le_rfl (.done _ _)
    · intro ncommas ch des
      have ends : zwrListEnd .dollarC [Ascii.close_paren] = some (.begin, []) := rfl
      exact .code ch (noDigit _ _ rfl) ends (by simp) (.done _ _)
  | cons next src ih =>
    obtain ⟨inQuotes, inList⟩ := ih
    constructor
    · intro span des
      rw [zwrText]
      cases isctl next with
      | true =>
        have turn : zwr2formatStep (.graphic span) des Ascii.quote (Ascii.underscore ::
            (DOLLARCH ++ (i2a next.toNat ++ zwrText isctl (.dollarC 0) src))) =
            some (.begin, des ++ span,
              DOLLARCH ++ (i2a next.toNat ++ zwrText isctl (.dollarC 0) src)) := rfl
        simp only [zwrWrite, if_true, List.cons_append, List.append_assoc]
        refine .step turn (by simp) (.dollar ?_)
        have behind := inList 0 next (des ++ span)
        rwa [List.append_assoc] at behind
      | false =>
        simp only [zwrWrite, Bool.false_eq_true, if_false, List.append_assoc,
          List.singleton_append]
        exact .character next src inQuotes
    · intro ncommas ch des
      rw [zwrText]
      cases isctl next with
      | true =>
        simp only [zwrWrite, if_true]
        by_cases full : CHARMAXARGS = ncommas + 1
        · have ends : zwrListEnd .dollarC (CLOSE_PAREN_DOLLARCH ++
              (i2a next.toNat ++ zwrText isctl (.dollarC 0) src)) = some (.begin,
                DOLLARCH ++ (i2a next.toNat ++ zwrText isctl (.dollarC 0) src)) := rfl
          simp only [if_pos full, List.append_assoc]
          refine .code ch (noDigit _ _ rfl) ends (by simp) (.dollar ?_)
          have behind := inList 0 next (des ++ [ch])
          rwa [List.append_assoc] at behind
        · have ends : zwrListEnd .dollarC (Ascii.comma ::
              (i2a next.toNat ++ zwrText isctl (.dollarC (ncommas + 1)) src)) = some (.dollarC,
                i2a next.toNat ++ zwrText isctl (.dollarC (ncommas + 1)) src) := rfl
          simp only [if_neg full, List.cons_append]
          refine .code ch (noDigit _ _ rfl) ends (by simp) ?_
          have behind := inList (ncommas + 1) next (des ++ [ch])
          rwa [List.append_assoc] at behind
      | false =>
        have swapped : (next :: if next = Ascii.quote then [Ascii.quote] else []) ++
              zwrText isctl .quoted src =
            (if next = Ascii.quote then [Ascii.quote] else []) ++
              next :: zwrText isctl .quoted src := by
          by_cases quote : next = Ascii.quote <;> simp [quote]
        have ends : zwrListEnd .dollarC (CLOSE_PAREN_QUOTE ++
            ((if next = Ascii.quote then [Ascii.quote] else []) ++
              next :: zwrText isctl .quoted src)) = some (.begin, Ascii.quote ::
                ((if next = Ascii.quote then [Ascii.quote] else []) ++
                  next :: zwrText isctl .quoted src)) := rfl
        simp only [zwrWrite, Bool.false_eq_true, if_false]
        rw [List.append_assoc, swapped]
        refine .code ch (noDigit _ _ rfl) ends (by simp) (.quote ?_)
        have behind : ZwrReads (.graphic []) (des ++ [ch])
            ((if next = Ascii.quote then [Ascii.quote] else []) ++
              next :: zwrText isctl .quoted src) (des ++ [ch] ++ ([] ++ next :: src)) :=
          .character next src inQuotes
        rwa [List.append_assoc] at behind

/-- The whole text of a nonempty string is read back. -/
theorem zwrText_start_reads (isctl : UInt8 → Bool) (ch : UInt8) (src : List UInt8) :
    ZwrReads .begin [] (zwrText isctl .start (ch :: src)) (ch :: src) := by
  obtain ⟨inQuotes, inList⟩ := zwrText_reads isctl src
  rw [zwrText]
  cases isctl ch with
  | true =>
    simp only [zwrWrite, if_true, List.append_assoc]
    exact .dollar (inList 0 ch [])
  | false =>
    simp only [zwrWrite, Bool.false_eq_true, if_false, List.cons_append, List.append_assoc,
      List.nil_append]
    have behind : ZwrReads (.graphic []) [] ((if ch = Ascii.quote then [Ascii.quote] else []) ++
        ch :: zwrText isctl .quoted src) ([] ++ ([] ++ ch :: src)) := .character ch src inQuotes
    exact .quote behind

/-- Writing any string in ZWRITE form and reading it back returns the string. -/
theorem zwr_round_trip (isctl : UInt8 → Bool) (s : List UInt8) :
    ∃ text, format2zwr isctl s ( ZWR_EXP_RATIO s.length) = .ok (text, false) ∧
      text.length < ZWR_EXP_RATIO s.length ∧ zwr2format text = some s := by
  refine ⟨_, format2zwr_eq isctl s _ le_rfl, ?_, ?_⟩
  · have length := zwrText_length isctl .start s
    rw [ ZWR_EXP_RATIO]
    split
    · simp only [List.length_cons, List.length_nil]
      omega
    · omega
  · cases s with
    | nil => rfl
    | cons ch src =>
      rw [if_neg (by simp)]
      exact zwrText_start_reads isctl ch src _ le_rfl

end Ydb
