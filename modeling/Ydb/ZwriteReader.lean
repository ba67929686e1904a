import Ydb.ZwriteFormat

/-!
# The ZWRITE reader at the end of its text

`zwr2format` looks at the end of its text only where a term may end. Elsewhere it reads
on, and where the text stops there, past its end. This reader tells the two failures
apart, and agrees with the plain one otherwise.
-/

namespace Ydb

open Lib

/-! ## The reader with the end of its text -/

/-- Why the reader stops early: it returns false, or it reads past the end. -/
inductive ZwrStop where
  | invalid
  | overrun
deriving DecidableEq, Repr

/-- Where the reader is between two turns. `closed` notes whether the last turn ended a
term at the end of the text; the source keeps no such note. -/
structure ZwrPlace where
  state : ZwrRead
  des : List UInt8
  cp : List UInt8
  closed : Bool

/-- The character at `cp`, which is then advanced. -/
def readByte : List UInt8 → Except ZwrStop (UInt8 × List UInt8)
  | ch :: cp => .ok (ch, cp)
  | [] => .error .overrun

/-- Read one character, which has to satisfy a test. -/
def expect (test : UInt8 → Bool) (cp : List UInt8) : Except ZwrStop (List UInt8) :=
  match readByte cp with
  | .error stop => .error stop
  | .ok (ch, cp) => if test ch then .ok cp else .error .invalid

/-- Behind a dollar sign. -/
def zwrName (cp : List UInt8) : Except ZwrStop (ZwrRead × List UInt8) := do
  let (ch, cp) ← readByte cp
  if lowerToUpper ch = Ascii.upperC then
    let cp ← expect (· = Ascii.open_paren) cp
    .ok (.dollarC, cp)
  else if lowerToUpper ch = Ascii.upperZ then
    let cp ← expect (lowerToUpper · = Ascii.upperC) cp
    let cp ← expect (lowerToUpper · = Ascii.upperH) cp
    let cp ← expect (· = Ascii.open_paren) cp
    .ok (.dollarZCH, cp)
  else .error .invalid

/-- A code of a list with what stands behind it. -/
def zwrCode (st : ZwrRead) (des cp : List UInt8) : Except ZwrStop ZwrPlace := do
  let (num, cp) := a2i cp
  if num < 0 ∨ num > 255 then .error .invalid
  else
    let des := des ++ [UInt8.ofNat num.toNat]
    let (ch, cp) ← readByte cp
    if ch = Ascii.comma then .ok ⟨st, des, cp, false⟩
    else if ch = Ascii.close_paren then
      match cp with
      | [] => .ok ⟨.begin, des, [], true⟩
      | next :: cp =>
        if next = Ascii.underscore then .ok ⟨.begin, des, cp, false⟩ else .error .invalid
    else .error .invalid

/-- One turn of the loop. -/
def zwrTurn (st : ZwrRead) (des : List UInt8) (ch : UInt8) (cp : List UInt8) :
    Except ZwrStop ZwrPlace :=
  match st with
  | .begin =>
    if ch = Ascii.dollar then do
      let (next, cp) ← zwrName cp
      .ok ⟨next, des, cp, false⟩
    else if ch = Ascii.quote then .ok ⟨.graphic [], des, cp, false⟩
    else if ch = Ascii.minus ∨ isDigit ch = true then .ok ⟨.numeric, des ++ [ch], cp, false⟩
    else if ch = Ascii.dot then .ok ⟨.fraction, des ++ [ch], cp, false⟩
    else .error .invalid
  | .graphic span =>
    if ch = Ascii.quote then
      match cp with
      | [] => .ok ⟨.graphic span, des ++ span, [], true⟩
      | next :: cp =>
        if next = Ascii.quote then .ok ⟨.graphic [], des ++ (span ++ [Ascii.quote]), cp, false⟩
        else if next = Ascii.underscore then .ok ⟨.begin, des ++ span, cp, false⟩
        else .error .invalid
    else .ok ⟨.graphic (span ++ [ch]), des, cp, false⟩
  | .dollarC => zwrCode .dollarC des (ch :: cp)
  | .dollarZCH => zwrCode .dollarZCH des (ch :: cp)
  | .numeric =>
    if isDigit ch = true then .ok ⟨.numeric, des ++ [ch], cp, false⟩
    else if ch = Ascii.dot then .ok ⟨.fraction, des ++ [ch], cp, false⟩
    else .error .invalid
  | .fraction =>
    if isDigit ch = true then .ok ⟨.fraction, des ++ [ch], cp, false⟩ else .error .invalid

/-- The loop. Every turn consumes text, so the length of the text bounds the turns. -/
def zwrLoop : Nat → ZwrPlace → Except ZwrStop (List UInt8 × Bool)
  | _, ⟨_, des, [], closed⟩ => .ok (des, closed)
  | 0, ⟨_, _, _ :: _, _⟩ => .error .invalid
  | turns + 1, ⟨st, des, ch :: cp, _⟩ => do
    let place ← zwrTurn st des ch cp
    zwrLoop turns place

/-- The reader from a place on. -/
def ZwrPlace.run (place : ZwrPlace) : Except ZwrStop (List UInt8 × Bool) :=
  zwrLoop place.cp.length place

/-- `zwr2format` on a text with nothing known behind it. -/
def zwr2formatWithin (src : List UInt8) : Except ZwrStop (List UInt8) :=
  (ZwrPlace.run ⟨.begin, [], src, false⟩).map Prod.fst

/-! ## Turns -/

theorem a2iFrom_length (num : Int) (cp : List UInt8) : (a2iFrom num cp).2.length ≤ cp.length := by
  induction cp generalizing num with
  | nil => exact le_rfl
  | cons ch cp ih =>
    rw [a2iFrom]
    split
    · exact le_trans (ih _) (Nat.le_succ _)
    · exact le_rfl

theorem a2i_length (cp : List UInt8) : (a2i cp).2.length ≤ cp.length := by
  unfold a2i
  have shorter := a2iFrom_length 0 cp
  dsimp only
  split <;> exact shorter

theorem readByte_ok {cp cp' : List UInt8} {ch : UInt8} : readByte cp = .ok (ch, cp') ↔ cp = ch :: cp' := by
  cases cp <;> simp [readByte]

theorem expect_ok {test : UInt8 → Bool} {cp cp' : List UInt8} :
    expect test cp = .ok cp' ↔ ∃ ch, test ch = true ∧ cp = ch :: cp' := by
  cases cp with
  | nil => simp [expect, readByte]
  | cons ch cp =>
    simp only [expect, readByte]
    by_cases passes : test ch = true
    · rw [if_pos passes]
      constructor
      · rintro ⟨⟩
        exact ⟨ch, passes, rfl⟩
      · rintro ⟨_, _, same⟩
        rw [(List.cons.inj same).2]
    · rw [if_neg passes]
      constructor
      · rintro ⟨⟩
      · rintro ⟨_, test, same⟩
        rw [← (List.cons.inj same).1] at test
        exact absurd test passes

theorem bind_ok {α β : Type} {x : Except ZwrStop α} {f : α → Except ZwrStop β} {b : β} :
    (x >>= f) = .ok b ↔ ∃ a, x = .ok a ∧ f a = .ok b := by
  cases x with
  | error stop => simp [bind, Except.bind]
  | ok a => simp [bind, Except.bind]

theorem zwrName_length {cp cp' : List UInt8} {st : ZwrRead} (named : zwrName cp = .ok (st, cp')) :
    cp'.length ≤ cp.length := by
  obtain ⟨⟨ch, cp₁⟩, first, rest⟩ := bind_ok.mp named
  rw [readByte_ok.mp first, List.length_cons]
  dsimp only at rest
  split at rest
  · obtain ⟨cp₂, second, last⟩ := bind_ok.mp rest
    obtain ⟨_, _, same⟩ := expect_ok.mp second
    cases last
    rw [same, List.length_cons]
    omega
  · split at rest
    · obtain ⟨cp₂, second, rest⟩ := bind_ok.mp rest
      obtain ⟨cp₃, third, rest⟩ := bind_ok.mp rest
      obtain ⟨cp₄, fourth, last⟩ := bind_ok.mp rest
      obtain ⟨_, _, same₂⟩ := expect_ok.mp second
      obtain ⟨_, _, same₃⟩ := expect_ok.mp third
      obtain ⟨_, _, same₄⟩ := expect_ok.mp fourth
      cases last
      rw [same₂, same₃, same₄]
      simp only [List.length_cons]
      omega
    · cases rest

theorem zwrCode_length {st : ZwrRead} {des cp : List UInt8} {place : ZwrPlace}
    (read : zwrCode st des cp = .ok place) : place.cp.length + 1 ≤ cp.length := by
  have shorter := a2i_length cp
  unfold zwrCode at read
  dsimp only at read
  split at read
  · cases read
  · obtain ⟨⟨ch, cp'⟩, next, rest⟩ := bind_ok.mp read
    rw [readByte_ok.mp next, List.length_cons] at shorter
    dsimp only at rest
    split at rest
    · cases rest
      exact shorter
    · split at rest
      · split at rest
        · cases rest
          exact shorter
        · split at rest
          · cases rest
            rw [List.length_cons] at shorter
            exact Nat.le_of_succ_le shorter
          · cases rest
      · cases rest

/-- A turn consumes its character. -/
theorem zwrTurn_length {st : ZwrRead} {des cp : List UInt8} {ch : UInt8} {place : ZwrPlace}
    (turn : zwrTurn st des ch cp = .ok place) : place.cp.length ≤ cp.length := by
  cases st with
  | begin =>
    simp only [zwrTurn] at turn
    split at turn
    · obtain ⟨⟨next, cp'⟩, named, rest⟩ := bind_ok.mp turn
      cases rest
      exact zwrName_length named
    · split at turn
      · cases turn
        exact le_rfl
      · split at turn
        · cases turn
          exact le_rfl
        · split at turn
          · cases turn
            exact le_rfl
          · cases turn
  | graphic span =>
    simp only [zwrTurn] at turn
    split at turn
    · split at turn
      · cases turn
        exact le_rfl
      · split at turn
        · cases turn
          exact Nat.le_succ _
        · split at turn
          · cases turn
            exact Nat.le_succ _
          · cases turn
    · cases turn
      exact le_rfl
  | dollarC =>
    have read : zwrCode .dollarC des (ch :: cp) = .ok place := turn
    exact Nat.le_of_succ_le_succ (zwrCode_length read)
  | dollarZCH =>
    have read : zwrCode .dollarZCH des (ch :: cp) = .ok place := turn
    exact Nat.le_of_succ_le_succ (zwrCode_length read)
  | numeric =>
    simp only [zwrTurn] at turn
    split at turn
    · cases turn
      exact le_rfl
    · split at turn
      · cases turn
        exact le_rfl
      · cases turn
  | fraction =>
    simp only [zwrTurn] at turn
    split at turn
    · cases turn
      exact le_rfl
    · cases turn

/-- Turns left over change nothing. -/
theorem zwrLoop_enough (m n : Nat) (place : ZwrPlace) (first : place.cp.length ≤ m)
    (second : place.cp.length ≤ n) : zwrLoop m place = zwrLoop n place := by
  induction m generalizing n place with
  | zero =>
    obtain ⟨st, des, cp, closed⟩ := place
    obtain rfl : cp = [] := List.eq_nil_of_length_eq_zero (Nat.le_zero.mp first)
    cases n <;> rfl
  | succ m ih =>
    obtain ⟨st, des, cp, closed⟩ := place
    cases cp with
    | nil => cases n <;> rfl
    | cons ch cp =>
      cases n with
      | zero => cases second
      | succ n =>
        show (zwrTurn st des ch cp).bind (zwrLoop m) = (zwrTurn st des ch cp).bind (zwrLoop n)
        cases turn : zwrTurn st des ch cp with
        | error stop => rfl
        | ok place =>
          have shorter := zwrTurn_length turn
          rw [List.length_cons] at first second
          exact ih n place (by omega) (by omega)

theorem ZwrPlace.run_nil (st : ZwrRead) (des : List UInt8) (closed : Bool) :
    ZwrPlace.run ⟨st, des, [], closed⟩ = .ok (des, closed) := rfl

theorem ZwrPlace.run_cons (st : ZwrRead) (des cp : List UInt8) (ch : UInt8) (closed : Bool) :
    ZwrPlace.run ⟨st, des, ch :: cp, closed⟩ = (zwrTurn st des ch cp).bind ZwrPlace.run := by
  show (zwrTurn st des ch cp).bind (zwrLoop cp.length) = _
  cases turn : zwrTurn st des ch cp with
  | error stop => rfl
  | ok place => exact zwrLoop_enough _ _ place (zwrTurn_length turn) le_rfl

/-! ## The reader without the end of its text -/

/-- The name behind the dollar sign is read as `zwrName` says. -/
theorem zwrDollar_eq (cp : List UInt8) : zwrDollar cp = (zwrName cp).toOption := by
  cases cp with
  | nil => rfl
  | cons c cp =>
    by_cases isC : lowerToUpper c = Ascii.upperC
    · cases cp with
      | nil => simp [zwrDollar, zwrName, readByte, expect, isC, bind, Except.bind, Except.toOption]
      | cons p cp =>
        by_cases paren : p = Ascii.open_paren
        all_goals simp [zwrDollar, zwrName, readByte, expect, isC, paren, bind, Except.bind,
          Except.toOption]
    · by_cases isZ : lowerToUpper c = Ascii.upperZ
      · rw [isZ] at isC
        rcases cp with _ | ⟨c₁, _ | ⟨h, _ | ⟨p, cp⟩⟩⟩
        · simp [zwrDollar, zwrName, readByte, expect, isZ, isC, bind, Except.bind, Except.toOption]
        · by_cases isC₁ : lowerToUpper c₁ = Ascii.upperC
          all_goals simp [zwrDollar, zwrName, readByte, expect, isZ, isC, isC₁, bind, Except.bind,
            Except.toOption]
        · by_cases isC₁ : lowerToUpper c₁ = Ascii.upperC
          all_goals
            by_cases isH : lowerToUpper h = Ascii.upperH
            all_goals simp [zwrDollar, zwrName, readByte, expect, isZ, isC, isC₁, isH, bind,
              Except.bind, Except.toOption]
        · by_cases isC₁ : lowerToUpper c₁ = Ascii.upperC
          all_goals
            by_cases isH : lowerToUpper h = Ascii.upperH
            all_goals
              by_cases paren : p = Ascii.open_paren
              all_goals simp [zwrDollar, zwrName, readByte, expect, isZ, isC, isC₁, isH, paren, bind,
                Except.bind, Except.toOption]
      · simp [zwrDollar, zwrName, readByte, isC, isZ, bind, Except.bind, Except.toOption]

/-- A turn of `zwr2format` is one of this reader; it does not tell an overrun from a
mismatch. -/
theorem zwr2formatStep_eq (st : ZwrRead) (des cp : List UInt8) (ch : UInt8) :
    zwr2formatStep st des ch cp =
      (zwrTurn st des ch cp).toOption.map fun place => (place.state, place.des, place.cp) := by
  have code (st : ZwrRead) : zwrListItem st des (ch :: cp) =
      (zwrCode st des (ch :: cp)).toOption.map fun place => (place.state, place.des, place.cp) := by
    unfold zwrListItem zwrCode
    dsimp only
    split
    · rfl
    · cases (a2i (ch :: cp)).2 with
      | nil => rfl
      | cons next rest =>
        by_cases comma : next = Ascii.comma
        · simp [zwrListEnd, readByte, bind, Except.bind, comma, Except.toOption]
        · by_cases paren : next = Ascii.close_paren
          · subst paren
            cases rest with
            | nil => simp [zwrListEnd, readByte, bind, Except.bind, comma, Except.toOption]
            | cons last rest =>
              by_cases underscore : last = Ascii.underscore
              all_goals simp [zwrListEnd, readByte, bind, Except.bind, comma, underscore,
                Except.toOption]
          · simp [zwrListEnd, readByte, bind, Except.bind, comma, paren, Except.toOption]
  cases st with
  | begin =>
    simp only [zwr2formatStep, zwrTurn]
    by_cases dollar : ch = Ascii.dollar
    · rw [if_pos dollar, if_pos dollar, zwrDollar_eq]
      cases zwrName cp <;> rfl
    · rw [if_neg dollar, if_neg dollar]
      split
      · rfl
      · split
        · rfl
        · split <;> rfl
  | graphic span =>
    simp only [zwr2formatStep, zwrTurn]
    split
    · cases cp with
      | nil => rfl
      | cons next cp =>
        dsimp only
        split
        · rfl
        · split <;> rfl
    · rfl
  | dollarC => exact code .dollarC
  | dollarZCH => exact code .dollarZCH
  | numeric =>
    simp only [zwr2formatStep, zwrTurn]
    split
    · rfl
    · split <;> rfl
  | fraction =>
    simp only [zwr2formatStep, zwrTurn]
    split <;> rfl

theorem zwr2formatLoop_eq (turns : Nat) (st : ZwrRead) (des cp : List UInt8) (closed : Bool) :
    zwr2formatLoop turns st des cp = (zwrLoop turns ⟨st, des, cp, closed⟩).toOption.map Prod.fst := by
  induction turns generalizing st des cp closed with
  | zero => cases cp <;> rfl
  | succ turns ih =>
    cases cp with
    | nil => rfl
    | cons ch cp =>
      have step : zwrLoop (turns + 1) ⟨st, des, ch :: cp, closed⟩ =
          (zwrTurn st des ch cp).bind (zwrLoop turns) := rfl
      rw [zwr2formatLoop, zwr2formatStep_eq, step]
      cases turn : zwrTurn st des ch cp with
      | error stop => rfl
      | ok place => exact ih _ _ _ place.closed

/-- `zwr2format` accepts what this reader accepts, with the same result. -/
theorem zwr2format_eq (src : List UInt8) : zwr2format src = (zwr2formatWithin src).toOption := by
  rw [zwr2format, zwr2formatLoop_eq _ _ _ _ false, zwr2formatWithin, ZwrPlace.run]
  cases zwrLoop src.length ⟨.begin, [], src, false⟩ <;> rfl

end Ydb
