import Ydb.ZwriteReader

/-!
# The ZWRITE form of a value

The text of a value is a canonical number, or terms joined by underscores: quoted
strings with their quotes doubled, and `$C` or `$ZCH` lists of character codes. Beside
this grammar stand the texts that `zwr2format` takes although they break off inside a
term. For each piece of text the reader is followed through it, and conversely a text
that it does not reject is taken apart.
-/

namespace Ydb

open Lib

/-! ## The grammar -/

/-- A quoted string behind its opening quote, with the bytes it denotes. -/
inductive ZwrQuoted : List UInt8 → List UInt8 → Prop
  | close : ZwrQuoted [Ascii.quote] []
  | doubled {w out : List UInt8} (rest : ZwrQuoted w out) :
      ZwrQuoted (Ascii.quote :: Ascii.quote :: w) (Ascii.quote :: out)
  | char {ch : UInt8} {w out : List UInt8} (plain : ch ≠ Ascii.quote) (rest : ZwrQuoted w out) :
      ZwrQuoted (ch :: w) (ch :: out)

/-- The number that a run of digits denotes. -/
def codeValue (digits : List UInt8) : Nat := digits.foldl (fun num ch => num * 10 + digitVal ch) 0

/-- A code is a number of one byte. -/
def IsCode (text : List UInt8) (b : UInt8) : Prop :=
  text ≠ [] ∧ (∀ ch ∈ text, isDigit ch = true) ∧ codeValue text = b.toNat

/-- A code as `A2I` reads it in 32 bits. -/
def ReadsCode (text : List UInt8) (b : UInt8) : Prop :=
  text ≠ [] ∧ (∀ ch ∈ text, isDigit ch = true) ∧ a2i text = ((b.toNat : Int), [])

section Grammar

variable (Code : List UInt8 → UInt8 → Prop)

/-- Codes each followed by a comma. -/
inductive ZwrItems : List UInt8 → List UInt8 → Prop
  | nil : ZwrItems [] []
  | cons {text w out : List UInt8} {b : UInt8} (code : Code text b) (rest : ZwrItems w out) :
      ZwrItems (text ++ Ascii.comma :: w) (b :: out)

/-- What opens a list: `$C(` or `$ZCH(` in either case, with the state behind it. -/
inductive ZwrOpening : ZwrRead → List UInt8 → Prop
  | dollarC {c : UInt8} (isC : lowerToUpper c = Ascii.upperC) :
      ZwrOpening .dollarC [Ascii.dollar, c, Ascii.open_paren]
  | dollarZCH {z c h : UInt8} (isZ : lowerToUpper z = Ascii.upperZ)
      (isC : lowerToUpper c = Ascii.upperC) (isH : lowerToUpper h = Ascii.upperH) :
      ZwrOpening .dollarZCH [Ascii.dollar, z, c, h, Ascii.open_paren]

/-- A term with the bytes it denotes. -/
inductive ZwrTerm : List UInt8 → List UInt8 → Prop
  | quoted {w out : List UInt8} (body : ZwrQuoted w out) : ZwrTerm (Ascii.quote :: w) out
  | list {st : ZwrRead} {opening items text out : List UInt8} {b : UInt8}
      (opens : ZwrOpening st opening) (codes : ZwrItems Code items out) (last : Code text b) :
      ZwrTerm (opening ++ (items ++ (text ++ [Ascii.close_paren]))) (out ++ [b])

/-- Terms each followed by an underscore. -/
inductive ZwrHeads : List UInt8 → List UInt8 → Prop
  | nil : ZwrHeads [] []
  | cons {w out more moreOut : List UInt8} (term : ZwrTerm Code w out)
      (rest : ZwrHeads more moreOut) :
      ZwrHeads (w ++ Ascii.underscore :: more) (out ++ moreOut)

/-- Terms joined by underscores. -/
def ZwrTerms (z out : List UInt8) : Prop :=
  ∃ head last headOut lastOut, z = head ++ last ∧ out = headOut ++ lastOut ∧
    ZwrHeads Code head headOut ∧ ZwrTerm Code last lastOut

end Grammar

/-- The text of a value with the bytes it denotes. -/
def ZwrDenotes (z out : List UInt8) : Prop := (CanonicalText z ∧ out = z) ∨ ZwrTerms IsCode z out

/-! ## Where the reader goes wrong -/

/-- A quoted string that is not closed, behind its opening quote. -/
inductive ZwrUnclosed : List UInt8 → Prop
  | nil : ZwrUnclosed []
  | doubled {w : List UInt8} (rest : ZwrUnclosed w) :
      ZwrUnclosed (Ascii.quote :: Ascii.quote :: w)
  | char {ch : UInt8} {w : List UInt8} (plain : ch ≠ Ascii.quote) (rest : ZwrUnclosed w) :
      ZwrUnclosed (ch :: w)

/-- Text that breaks off where the reader needs no further character: nothing at all,
an open quoted string, or a list that ends behind its parenthesis or a comma. -/
inductive ZwrUnfinished : List UInt8 → Prop
  | nothing : ZwrUnfinished []
  | quoted {w : List UInt8} (body : ZwrUnclosed w) : ZwrUnfinished (Ascii.quote :: w)
  | list {st : ZwrRead} {opening items out : List UInt8} (opens : ZwrOpening st opening)
      (codes : ZwrItems ReadsCode items out) : ZwrUnfinished (opening ++ items)

/-- Text that breaks off where the reader goes on without looking for its end: inside
the opening of a list, or behind one of its codes. -/
inductive ZwrCut : List UInt8 → Prop
  | opening {st : ZwrRead} {opening given missing : List UInt8} (opens : ZwrOpening st opening)
      (split : opening = given ++ missing) (begun : given ≠ []) (more : missing ≠ []) :
      ZwrCut given
  | code {st : ZwrRead} {opening items text out : List UInt8} {b : UInt8}
      (opens : ZwrOpening st opening) (codes : ZwrItems ReadsCode items out)
      (last : ReadsCode text b) : ZwrCut (opening ++ (items ++ text))

/-- A point with digits behind it, or nothing. -/
def ZwrFraction (w : List UInt8) : Prop :=
  w = [] ∨ ∃ digits, w = Ascii.dot :: digits ∧ ∀ ch ∈ digits, isDigit ch = true

/-- The characters of a number, canonical or not: an optional minus sign, digits, a
point and digits, of which only one has to be there. -/
def ZwrNumeric (z : List UInt8) : Prop :=
  ∃ sign whole fraction : List UInt8, z = sign ++ (whole ++ fraction) ∧ z ≠ [] ∧
    (sign = [] ∨ sign = [Ascii.minus]) ∧ (∀ ch ∈ whole, isDigit ch = true) ∧ ZwrFraction fraction

/-- The texts on which the reader goes wrong. Either complete terms, each with its
underscore, are followed by text that breaks off, or by a number that is not alone or
not canonical; or a code is above `2 ^ 32` and its remainder is taken for it. -/
def ZwrMisread (z : List UInt8) : Prop :=
  (∃ head tail out, z = head ++ tail ∧ ZwrHeads ReadsCode head out ∧
    (ZwrUnfinished tail ∨ ZwrCut tail ∨
      (ZwrNumeric tail ∧ ¬ (head = [] ∧ CanonicalText tail)))) ∨
  ((∃ out, ZwrTerms ReadsCode z out) ∧ ∀ out, ¬ ZwrTerms IsCode z out)

/-! ## Quoted strings -/

/-- One character inside a quoted string. -/
theorem run_graphic_char {ch : UInt8} (plain : ch ≠ Ascii.quote) (span des cp : List UInt8)
    (closed : Bool) :
    ZwrPlace.run ⟨.graphic span, des, ch :: cp, closed⟩ =
      ZwrPlace.run ⟨.graphic (span ++ [ch]), des, cp, false⟩ := by
  have turn : zwrTurn (.graphic span) des ch cp = .ok ⟨.graphic (span ++ [ch]), des, cp, false⟩ := by
    simp [zwrTurn, plain]
  rw [ZwrPlace.run_cons, turn]
  rfl

theorem run_graphic_doubled (span des cp : List UInt8) (closed : Bool) :
    ZwrPlace.run ⟨.graphic span, des, Ascii.quote :: Ascii.quote :: cp, closed⟩ =
      ZwrPlace.run ⟨.graphic [], des ++ (span ++ [Ascii.quote]), cp, false⟩ := by
  rw [ZwrPlace.run_cons]
  rfl

/-- A quoted string is read. -/
theorem ZwrQuoted.run {w out : List UInt8} (body : ZwrQuoted w out) (span des : List UInt8)
    (closed : Bool) :
    ZwrPlace.run ⟨.graphic span, des, w, closed⟩ = .ok (des ++ (span ++ out), true) ∧
      ∀ rest, ZwrPlace.run ⟨.graphic span, des, w ++ Ascii.underscore :: rest, closed⟩ =
        ZwrPlace.run ⟨.begin, des ++ (span ++ out), rest, false⟩ := by
  induction body generalizing span des closed with
  | close =>
    rw [List.append_nil]
    constructor
    · rw [ZwrPlace.run_cons]
      rfl
    · intro rest
      rw [List.singleton_append, ZwrPlace.run_cons]
      rfl
  | @doubled w out _ ih =>
    obtain ⟨whole, more⟩ := ih [] (des ++ (span ++ [Ascii.quote])) false
    have same : des ++ (span ++ [Ascii.quote]) ++ ([] ++ out) =
        des ++ (span ++ Ascii.quote :: out) := by simp
    rw [same] at whole more
    constructor
    · rw [run_graphic_doubled, whole]
    · intro rest
      rw [List.cons_append, List.cons_append, run_graphic_doubled, more]
  | @char ch w out plain _ ih =>
    obtain ⟨whole, more⟩ := ih (span ++ [ch]) des false
    have same : des ++ (span ++ [ch] ++ out) = des ++ (span ++ ch :: out) := by simp
    rw [same] at whole more
    constructor
    · rw [run_graphic_char plain, whole]
    · intro rest
      rw [List.cons_append, run_graphic_char plain, more]

theorem ZwrUnclosed.run {w : List UInt8} (body : ZwrUnclosed w) (span des : List UInt8) :
    ∃ kept, ZwrPlace.run ⟨.graphic span, des, w, false⟩ = .ok (kept, false) := by
  induction body generalizing span des with
  | nil => exact ⟨des, rfl⟩
  | doubled _ ih =>
    rw [run_graphic_doubled]
    exact ih _ _
  | char plain _ ih =>
    rw [run_graphic_char plain]
    exact ih _ _

/-- How the reader fares behind an opening quote. -/
theorem graphic_cases (n : Nat) (span des cp : List UInt8) (short : cp.length ≤ n) :
    ZwrPlace.run ⟨.graphic span, des, cp, false⟩ = .error .invalid ∨ ZwrUnclosed cp ∨
      (∃ out, ZwrQuoted cp out) ∨
      ∃ w rest out, ZwrQuoted w out ∧ cp = w ++ Ascii.underscore :: rest := by
  induction n generalizing span des cp with
  | zero =>
    obtain rfl : cp = [] := List.eq_nil_of_length_eq_zero (Nat.le_zero.mp short)
    exact .inr (.inl .nil)
  | succ n ih =>
    cases cp with
    | nil => exact .inr (.inl .nil)
    | cons ch cp =>
      rw [List.length_cons] at short
      by_cases isQuote : ch = Ascii.quote
      · subst isQuote
        cases cp with
        | nil => exact .inr (.inr (.inl ⟨[], .close⟩))
        | cons next cp =>
          rw [List.length_cons] at short
          by_cases again : next = Ascii.quote
          · subst again
            rw [run_graphic_doubled]
            rcases ih [] _ cp (by omega) with
              rejected | unclosed | ⟨out, body⟩ | ⟨w, rest, out, body, rfl⟩
            · exact .inl rejected
            · exact .inr (.inl (.doubled unclosed))
            · exact .inr (.inr (.inl ⟨_, .doubled body⟩))
            · exact .inr (.inr (.inr ⟨_, rest, _, .doubled body, rfl⟩))
          · by_cases joined : next = Ascii.underscore
            · subst joined
              exact .inr (.inr (.inr ⟨_, cp, [], .close, rfl⟩))
            · left
              rw [ZwrPlace.run_cons, zwrTurn, if_pos rfl]
              simp only [again, joined, if_false]
              rfl
      · rw [run_graphic_char isQuote]
        rcases ih (span ++ [ch]) des cp (by omega) with
          rejected | unclosed | ⟨out, body⟩ | ⟨w, rest, out, body, rfl⟩
        · exact .inl rejected
        · exact .inr (.inl (.char isQuote unclosed))
        · exact .inr (.inr (.inl ⟨_, .char isQuote body⟩))
        · exact .inr (.inr (.inr ⟨_, rest, _, .char isQuote body, rfl⟩))

/-! ## Codes -/

theorem a2iFrom_append {text rest : List UInt8} {num result : Int}
    (read : a2iFrom num text = (result, [])) (stops : NoDigit rest) :
    a2iFrom num (text ++ rest) = (result, rest) := by
  induction text generalizing num with
  | nil =>
    cases read
    cases rest with
    | nil => rfl
    | cons ch rest => rw [List.nil_append, a2iFrom, if_neg (by simp [stops ch rest rfl])]
  | cons ch text ih =>
    rw [a2iFrom] at read
    rw [List.cons_append, a2iFrom]
    split at read
    next digit =>
      rw [if_pos digit]
      exact ih read
    next => cases read

/-- The digits that `A2I` takes are those in front of the rest. -/
theorem a2iFrom_split {cp rest : List UInt8} {num result : Int}
    (read : a2iFrom num cp = (result, rest)) (valid : 0 ≤ result) :
    ∃ text, cp = text ++ rest ∧ (∀ ch ∈ text, isDigit ch = true) ∧
      a2iFrom num text = (result, []) ∧ NoDigit rest := by
  induction cp generalizing num with
  | nil =>
    cases read
    exact ⟨[], rfl, by simp, rfl, noDigit_nil⟩
  | cons ch cp ih =>
    rw [a2iFrom] at read
    split at read
    next digit =>
      obtain ⟨text, rfl, digits, same, stops⟩ := ih read
      refine ⟨ch :: text, rfl, ?_, ?_, stops⟩
      · intro c member
        rcases List.mem_cons.mp member with rfl | inside
        · exact digit.2
        · exact digits c inside
      · rw [a2iFrom, if_pos digit]
        exact same
    next noDigit =>
      cases read
      refine ⟨[], rfl, by simp, rfl, ?_⟩
      rintro c more ⟨⟩
      rw [not_and, Bool.not_eq_true] at noDigit
      exact noDigit valid

theorem a2i_eq {cp rest : List UInt8} {num : Int} (valid : 0 ≤ num) :
    a2i cp = (num, rest) ↔ a2iFrom 0 cp = (num, rest) ∧ rest.length ≠ cp.length := by
  unfold a2i
  obtain ⟨n, r⟩ := a2iFrom 0 cp
  dsimp only
  split
  next same =>
    constructor
    · intro equal
      cases equal
      omega
    · rintro ⟨equal, differ⟩
      cases equal
      exact absurd same differ
  next differ =>
    constructor
    · intro equal
      cases equal
      exact ⟨rfl, differ⟩
    · rintro ⟨equal, _⟩
      exact equal

theorem ReadsCode.a2i {text rest : List UInt8} {b : UInt8} (code : ReadsCode text b)
    (stops : NoDigit rest) : Ydb.a2i (text ++ rest) = ((b.toNat : Int), rest) := by
  obtain ⟨some, _, read⟩ := code
  obtain ⟨run, _⟩ := (a2i_eq (Int.natCast_nonneg _)).mp read
  apply (a2i_eq (Int.natCast_nonneg _)).mpr
  refine ⟨a2iFrom_append run stops, ?_⟩
  have filled := List.length_pos_iff.mpr some
  rw [List.length_append]
  omega

theorem exists_code {cp rest : List UInt8} {num : Int} (read : a2i cp = (num, rest)) (low : 0 ≤ num)
    (high : num ≤ 255) :
    ∃ text, cp = text ++ rest ∧ ReadsCode text (UInt8.ofNat num.toNat) ∧ NoDigit rest := by
  obtain ⟨run, shorter⟩ := (a2i_eq low).mp read
  obtain ⟨text, rfl, digits, same, stops⟩ := a2iFrom_split run low
  have some : text ≠ [] := by
    rintro rfl
    exact shorter rfl
  refine ⟨text, rfl, ⟨some, digits, ?_⟩, stops⟩
  have value : (((UInt8.ofNat num.toNat).toNat : Nat) : Int) = num := by
    rw [UInt8.toNat_ofNat']
    omega
  rw [value]
  refine (a2i_eq low).mpr ⟨same, ?_⟩
  have filled := List.length_pos_iff.mpr some
  simp only [List.length_nil]
  omega

/-! ## Lists -/

/-- The state inside a list. -/
def ZwrRead.InList (st : ZwrRead) : Prop := st = .dollarC ∨ st = .dollarZCH

theorem ZwrOpening.inList {st : ZwrRead} {opening : List UInt8} (opens : ZwrOpening st opening) :
    st.InList := by
  cases opens with
  | dollarC => exact .inl rfl
  | dollarZCH => exact .inr rfl

theorem ZwrRead.InList.run {st : ZwrRead} (inList : st.InList) (des cp : List UInt8)
    (some : cp ≠ []) (closed : Bool) :
    ZwrPlace.run ⟨st, des, cp, closed⟩ = (zwrCode st des cp).bind ZwrPlace.run := by
  cases cp with
  | nil => exact absurd rfl some
  | cons ch cp =>
    rw [ZwrPlace.run_cons]
    rcases inList with rfl | rfl <;> rfl

theorem ReadsCode.zwrCode {text : List UInt8} {b : UInt8} (code : ReadsCode text b) (st : ZwrRead)
    (des rest : List UInt8) (stops : NoDigit rest) :
    Ydb.zwrCode st des (text ++ rest) = (readByte rest).bind fun next =>
      if next.1 = Ascii.comma then .ok ⟨st, des ++ [b], next.2, false⟩
      else if next.1 = Ascii.close_paren then
        match next.2 with
        | [] => .ok ⟨.begin, des ++ [b], [], true⟩
        | next :: cp =>
          if next = Ascii.underscore then .ok ⟨.begin, des ++ [b], cp, false⟩
          else .error .invalid
      else .error .invalid := by
  have small := b.toNat_lt
  rw [Ydb.zwrCode, code.a2i stops]
  dsimp only
  rw [if_neg (by omega), Int.toNat_natCast, UInt8.ofNat_toNat]
  rfl

/-- The reader at a code, by what stands behind it. -/
theorem ReadsCode.run {text : List UInt8} {b : UInt8} (code : ReadsCode text b) {st : ZwrRead}
    (inList : st.InList) (des : List UInt8) (closed : Bool) :
    ZwrPlace.run ⟨st, des, text, closed⟩ = .error .overrun ∧
      (∀ rest, ZwrPlace.run ⟨st, des, text ++ Ascii.comma :: rest, closed⟩ =
        ZwrPlace.run ⟨st, des ++ [b], rest, false⟩) ∧
      ZwrPlace.run ⟨st, des, text ++ [Ascii.close_paren], closed⟩ = .ok (des ++ [b], true) ∧
      ∀ rest, ZwrPlace.run ⟨st, des, text ++ Ascii.close_paren :: Ascii.underscore :: rest, closed⟩ =
        ZwrPlace.run ⟨.begin, des ++ [b], rest, false⟩ := by
  have nonempty (rest : List UInt8) : text ++ rest ≠ [] := by simp [code.1]
  have noDigit (ch : UInt8) (rest : List UInt8) (other : isDigit ch = false) :
      NoDigit (ch :: rest) := by
    rintro c more ⟨⟩
    exact other
  refine ⟨?_, fun rest => ?_, ?_, fun rest => ?_⟩
  · have alone := code.zwrCode st des [] noDigit_nil
    rw [List.append_nil] at alone
    rw [inList.run _ _ code.1, alone]
    rfl
  · rw [inList.run _ _ (nonempty _), code.zwrCode _ _ _ (noDigit _ _ rfl)]
    rfl
  · rw [inList.run _ _ (nonempty _), code.zwrCode _ _ _ (noDigit _ _ rfl)]
    rfl
  · rw [inList.run _ _ (nonempty _), code.zwrCode _ _ _ (noDigit _ _ rfl)]
    rfl

theorem ZwrItems.run {items out : List UInt8} (codes : ZwrItems ReadsCode items out) {st : ZwrRead}
    (inList : st.InList) (des rest : List UInt8) :
    ZwrPlace.run ⟨st, des, items ++ rest, false⟩ = ZwrPlace.run ⟨st, des ++ out, rest, false⟩ := by
  induction codes generalizing des with
  | nil => rw [List.nil_append, List.append_nil]
  | @cons text w out b code _ ih =>
    rw [List.append_assoc, List.cons_append, (code.run inList des false).2.1, ih,
      List.append_assoc, List.singleton_append]

/-- How the reader fares inside a list. -/
theorem list_cases (n : Nat) {st : ZwrRead} (inList : st.InList) (des cp : List UInt8)
    (short : cp.length ≤ n) :
    ZwrPlace.run ⟨st, des, cp, false⟩ = .error .invalid ∨
      ∃ items out, ZwrItems ReadsCode items out ∧
        (cp = items ∨ ∃ text b, ReadsCode text b ∧
          (cp = items ++ text ∨ cp = items ++ (text ++ [Ascii.close_paren]) ∨
            ∃ rest, cp = items ++ (text ++ Ascii.close_paren :: Ascii.underscore :: rest))) := by
  induction n generalizing des cp with
  | zero =>
    obtain rfl : cp = [] := List.eq_nil_of_length_eq_zero (Nat.le_zero.mp short)
    exact .inr ⟨[], [], .nil, .inl rfl⟩
  | succ n ih =>
    by_cases empty : cp = []
    · exact .inr ⟨[], [], .nil, .inl empty⟩
    · cases read : a2i cp with
      | mk num rest =>
        by_cases bad : num < 0 ∨ num > 255
        · left
          rw [inList.run _ _ empty, zwrCode, read]
          dsimp only
          rw [if_pos bad]
          rfl
        · rw [not_or, Int.not_lt, not_lt] at bad
          obtain ⟨text, rfl, code, stops⟩ := exists_code read bad.1 bad.2
          generalize UInt8.ofNat num.toNat = b at code
          obtain ⟨cut, comma, last, joined⟩ := code.run inList des false
          have filled := List.length_pos_iff.mpr code.1
          cases rest with
          | nil => exact .inr ⟨[], [], .nil, .inr ⟨text, b, code, .inl (by simp)⟩⟩
          | cons ch rest =>
            rw [List.length_append, List.length_cons] at short
            by_cases isComma : ch = Ascii.comma
            · subst isComma
              rw [comma]
              rcases ih (des ++ [b]) rest (by omega) with
                rejected | ⟨items, out, codes, ends⟩
              · exact .inl rejected
              · right
                refine ⟨text ++ Ascii.comma :: items, b :: out, .cons code codes, ?_⟩
                rcases ends with rfl | ⟨text', b', code', rfl | rfl | ⟨more, rfl⟩⟩
                · exact .inl rfl
                · exact .inr ⟨text', b', code', .inl (by simp)⟩
                · exact .inr ⟨text', b', code', .inr (.inl (by simp))⟩
                · exact .inr ⟨text', b', code', .inr (.inr ⟨more, by simp⟩)⟩
            · have nonempty : text ++ ch :: rest ≠ [] := by simp
              by_cases isParen : ch = Ascii.close_paren
              · subst isParen
                cases rest with
                | nil => exact .inr ⟨[], [], .nil, .inr ⟨text, b, code, .inr (.inl rfl)⟩⟩
                | cons next more =>
                  by_cases underscore : next = Ascii.underscore
                  · subst underscore
                    exact .inr ⟨[], [], .nil, .inr ⟨text, b, code, .inr (.inr ⟨more, rfl⟩)⟩⟩
                  · left
                    rw [inList.run _ _ nonempty, code.zwrCode _ _ _ stops]
                    simp [readByte, Except.bind, isComma, underscore]
              · left
                rw [inList.run _ _ nonempty, code.zwrCode _ _ _ stops]
                simp [readByte, Except.bind, isComma, isParen]

/-! ## Openings -/

theorem upperZ_ne_upperC : ¬ Ascii.upperZ = Ascii.upperC := by decide

/-- The reader at an opening. -/
theorem ZwrOpening.run {st : ZwrRead} {opening : List UInt8} (opens : ZwrOpening st opening)
    (des rest : List UInt8) (closed : Bool) :
    ZwrPlace.run ⟨.begin, des, opening ++ rest, closed⟩ = ZwrPlace.run ⟨st, des, rest, false⟩ := by
  cases opens with
  | @dollarC c isC =>
    have turn : zwrTurn .begin des Ascii.dollar (c :: Ascii.open_paren :: rest) =
        .ok ⟨.dollarC, des, rest, false⟩ := by
      simp [zwrTurn, zwrName, readByte, expect, isC, bind, Except.bind]
    rw [List.cons_append, ZwrPlace.run_cons, List.cons_append, List.singleton_append, turn]
    rfl
  | @dollarZCH z c h isZ isC isH =>
    have turn : zwrTurn .begin des Ascii.dollar (z :: c :: h :: Ascii.open_paren :: rest) =
        .ok ⟨.dollarZCH, des, rest, false⟩ := by
      simp [zwrTurn, zwrName, readByte, expect, isZ, upperZ_ne_upperC, isC, isH, bind, Except.bind]
    rw [List.cons_append, ZwrPlace.run_cons, List.cons_append, List.cons_append, List.cons_append,
      List.singleton_append, turn]
    rfl

/-- The reader at a name that it rejects. -/
theorem run_dollar_error {cp : List UInt8} {stop : ZwrStop} (named : zwrName cp = .error stop)
    (des : List UInt8) (closed : Bool) :
    ZwrPlace.run ⟨.begin, des, Ascii.dollar :: cp, closed⟩ = .error stop := by
  have turn : zwrTurn .begin des Ascii.dollar cp = .error stop := by
    simp [zwrTurn, named, bind, Except.bind]
  rw [ZwrPlace.run_cons, turn]
  rfl

/-- The reader at an opening that breaks off. -/
theorem ZwrOpening.cut {st : ZwrRead} {opening given missing : List UInt8}
    (opens : ZwrOpening st opening) (split : opening = given ++ missing) (begun : given ≠ [])
    (more : missing ≠ []) (des : List UInt8) (closed : Bool) :
    ZwrPlace.run ⟨.begin, des, given, closed⟩ = .error .overrun := by
  cases given with
  | nil => exact absurd rfl begun
  | cons d cp =>
    have name : d = Ascii.dollar ∧ zwrName cp = .error .overrun := by
      cases opens with
      | @dollarC c isC =>
        rw [List.cons_append, List.cons.injEq] at split
        obtain ⟨rfl, split⟩ := split
        refine ⟨rfl, ?_⟩
        rcases cp with _ | ⟨c₁, _ | ⟨c₂, cp⟩⟩
        · rfl
        · simp only [List.cons_append, List.cons.injEq] at split
          simp [zwrName, readByte, expect, ← split.1, isC, bind, Except.bind]
        · simp only [List.cons_append, List.cons.injEq, List.nil_eq, List.append_eq_nil_iff] at split
          exact absurd split.2.2.2 more
      | @dollarZCH z c h isZ isC isH =>
        rw [List.cons_append, List.cons.injEq] at split
        obtain ⟨rfl, split⟩ := split
        refine ⟨rfl, ?_⟩
        rcases cp with _ | ⟨c₁, _ | ⟨c₂, _ | ⟨c₃, _ | ⟨c₄, cp⟩⟩⟩⟩
        · rfl
        · simp only [List.cons_append, List.cons.injEq] at split
          simp [zwrName, readByte, expect, ← split.1, isZ, upperZ_ne_upperC, bind, Except.bind]
        · simp only [List.cons_append, List.cons.injEq] at split
          obtain ⟨rfl, rfl, _⟩ := split
          simp [zwrName, readByte, expect, isZ, upperZ_ne_upperC, isC, bind, Except.bind]
        · simp only [List.cons_append, List.cons.injEq] at split
          obtain ⟨rfl, rfl, rfl, _⟩ := split
          simp [zwrName, readByte, expect, isZ, upperZ_ne_upperC, isC, isH, bind, Except.bind]
        · simp only [List.cons_append, List.cons.injEq, List.nil_eq, List.append_eq_nil_iff] at split
          exact absurd split.2.2.2.2.2 more
    rw [name.1]
    exact run_dollar_error name.2 des closed

/-- How the reader fares behind a dollar sign. -/
theorem dollar_cases (des cp : List UInt8) (closed : Bool) :
    ZwrPlace.run ⟨.begin, des, Ascii.dollar :: cp, closed⟩ = .error .invalid ∨
      ZwrCut (Ascii.dollar :: cp) ∨
      ∃ st opening rest, ZwrOpening st opening ∧ Ascii.dollar :: cp = opening ++ rest := by
  have invalid (named : zwrName cp = .error .invalid) :
      ZwrPlace.run ⟨.begin, des, Ascii.dollar :: cp, closed⟩ = .error .invalid :=
    run_dollar_error named des closed
  have upperC : lowerToUpper Ascii.upperC = Ascii.upperC := by decide
  have upperH : lowerToUpper Ascii.upperH = Ascii.upperH := by decide
  cases cp with
  | nil =>
    exact .inr (.inl (.opening (.dollarC upperC)
      (show _ = [Ascii.dollar] ++ [Ascii.upperC, Ascii.open_paren] from rfl) (by simp) (by simp)))
  | cons c cp =>
    by_cases isC : lowerToUpper c = Ascii.upperC
    · cases cp with
      | nil =>
        exact .inr (.inl (.opening (.dollarC isC)
          (show _ = [Ascii.dollar, c] ++ [Ascii.open_paren] from rfl) (by simp) (by simp)))
      | cons p rest =>
        by_cases paren : p = Ascii.open_paren
        · subst paren
          exact .inr (.inr ⟨_, _, rest, .dollarC isC, rfl⟩)
        · exact .inl (invalid (by simp [zwrName, readByte, expect, isC, paren, bind, Except.bind]))
    · by_cases isZ : lowerToUpper c = Ascii.upperZ
      · cases cp with
        | nil =>
          exact .inr (.inl (.opening (.dollarZCH isZ upperC upperH)
            (show _ = [Ascii.dollar, c] ++ [Ascii.upperC, Ascii.upperH, Ascii.open_paren] from rfl)
            (by simp) (by simp)))
        | cons c₁ cp =>
          by_cases isC₁ : lowerToUpper c₁ = Ascii.upperC
          · cases cp with
            | nil =>
              exact .inr (.inl (.opening (.dollarZCH isZ isC₁ upperH)
                (show _ = [Ascii.dollar, c, c₁] ++ [Ascii.upperH, Ascii.open_paren] from rfl)
                (by simp) (by simp)))
            | cons h cp =>
              by_cases isH : lowerToUpper h = Ascii.upperH
              · cases cp with
                | nil =>
                  exact .inr (.inl (.opening (.dollarZCH isZ isC₁ isH)
                    (show _ = [Ascii.dollar, c, c₁, h] ++ [Ascii.open_paren] from rfl)
                    (by simp) (by simp)))
                | cons p rest =>
                  by_cases paren : p = Ascii.open_paren
                  · subst paren
                    exact .inr (.inr ⟨_, _, rest, .dollarZCH isZ isC₁ isH, rfl⟩)
                  · exact .inl (invalid (by
                      simp [zwrName, readByte, expect, isZ, upperZ_ne_upperC, isC₁, isH, paren, bind, Except.bind]))
              · exact .inl (invalid (by
                  simp [zwrName, readByte, expect, isZ, upperZ_ne_upperC, isC₁, isH, bind, Except.bind]))
          · exact .inl (invalid (by simp [zwrName, readByte, expect, isZ, upperZ_ne_upperC, isC₁, bind, Except.bind]))
      · exact .inl (invalid (by simp [zwrName, readByte, isC, isZ, bind, Except.bind]))

/-! ## Numbers -/

theorem run_fraction {digits : List UInt8} (all : ∀ ch ∈ digits, isDigit ch = true)
    (des : List UInt8) :
    ZwrPlace.run ⟨.fraction, des, digits, false⟩ = .ok (des ++ digits, false) := by
  induction digits generalizing des with
  | nil => rw [List.append_nil, ZwrPlace.run_nil]
  | cons ch digits ih =>
    have digit : isDigit ch = true := all ch List.mem_cons_self
    have turn : zwrTurn .fraction des ch digits = .ok ⟨.fraction, des ++ [ch], digits, false⟩ := by
      simp [zwrTurn, digit]
    rw [ZwrPlace.run_cons, turn]
    have rest := ih (fun c member => all c (List.mem_cons_of_mem _ member))
      (des ++ [ch])
    rw [List.append_assoc, List.singleton_append] at rest
    exact rest

theorem fraction_cases (des cp : List UInt8) :
    ZwrPlace.run ⟨.fraction, des, cp, false⟩ = .error .invalid ∨ ∀ ch ∈ cp, isDigit ch = true := by
  induction cp generalizing des with
  | nil => exact .inr (by simp)
  | cons ch cp ih =>
    rw [ZwrPlace.run_cons]
    by_cases digit : isDigit ch = true
    · have turn : zwrTurn .fraction des ch cp = .ok ⟨.fraction, des ++ [ch], cp, false⟩ := by
        simp [zwrTurn, digit]
      rw [turn]
      rcases ih (des ++ [ch]) with rejected | all
      · exact .inl rejected
      · right
        simpa [digit] using all
    · have turn : zwrTurn .fraction des ch cp = .error .invalid := by simp [zwrTurn, digit]
      rw [turn]
      exact .inl rfl

theorem run_numeric {whole fraction : List UInt8} (all : ∀ ch ∈ whole, isDigit ch = true)
    (point : ZwrFraction fraction) (des : List UInt8) :
    ZwrPlace.run ⟨.numeric, des, whole ++ fraction, false⟩ =
      .ok (des ++ (whole ++ fraction), false) := by
  induction whole generalizing des with
  | nil =>
    rcases point with rfl | ⟨digits, rfl, digit⟩
    · rw [List.append_nil, List.append_nil, ZwrPlace.run_nil]
    · have rest := run_fraction digit (des ++ [Ascii.dot])
      rw [List.append_assoc, List.singleton_append] at rest
      rw [List.nil_append, ZwrPlace.run_cons]
      exact rest
  | cons ch whole ih =>
    have digit : isDigit ch = true := all ch List.mem_cons_self
    have turn : zwrTurn .numeric des ch (whole ++ fraction) =
        .ok ⟨.numeric, des ++ [ch], whole ++ fraction, false⟩ := by
      simp [zwrTurn, digit]
    have rest := ih (fun c member => all c (List.mem_cons_of_mem _ member))
      (des ++ [ch])
    rw [List.append_assoc, List.singleton_append] at rest
    rw [List.cons_append, ZwrPlace.run_cons, turn]
    exact rest

theorem numeric_cases (des cp : List UInt8) :
    ZwrPlace.run ⟨.numeric, des, cp, false⟩ = .error .invalid ∨ ∃ whole fraction,
      cp = whole ++ fraction ∧ (∀ ch ∈ whole, isDigit ch = true) ∧ ZwrFraction fraction := by
  induction cp generalizing des with
  | nil => exact .inr ⟨[], [], rfl, by simp, .inl rfl⟩
  | cons ch cp ih =>
    rw [ZwrPlace.run_cons]
    by_cases digit : isDigit ch = true
    · have turn : zwrTurn .numeric des ch cp = .ok ⟨.numeric, des ++ [ch], cp, false⟩ := by
        simp [zwrTurn, digit]
      rw [turn]
      rcases ih (des ++ [ch]) with rejected | ⟨whole, fraction, rfl, all, point⟩
      · exact .inl rejected
      · exact .inr ⟨ch :: whole, fraction, rfl, by simpa [digit] using all, point⟩
    · by_cases dot : ch = Ascii.dot
      · subst dot
        rcases fraction_cases (des ++ [Ascii.dot]) cp with rejected | all
        · exact .inl rejected
        · exact .inr ⟨[], Ascii.dot :: cp, rfl, by simp, .inr ⟨cp, rfl, all⟩⟩
      · have turn : zwrTurn .numeric des ch cp = .error .invalid := by simp [zwrTurn, digit, dot]
        rw [turn]
        exact .inl rfl

/-- The first character of a number. -/
theorem run_number_start {ch : UInt8} (starts : ch = Ascii.minus ∨ isDigit ch = true)
    (des cp : List UInt8) (closed : Bool) :
    ZwrPlace.run ⟨.begin, des, ch :: cp, closed⟩ =
      ZwrPlace.run ⟨.numeric, des ++ [ch], cp, false⟩ := by
  have notDollar : ch ≠ Ascii.dollar := by
    rintro rfl
    revert starts
    decide
  have notQuote : ch ≠ Ascii.quote := by
    rintro rfl
    revert starts
    decide
  have turn : zwrTurn .begin des ch cp = .ok ⟨.numeric, des ++ [ch], cp, false⟩ := by
    simp only [zwrTurn, notDollar, notQuote, if_false]
    rw [if_pos starts]
  rw [ZwrPlace.run_cons, turn]
  rfl

theorem ZwrNumeric.run {z : List UInt8} (number : ZwrNumeric z) (des : List UInt8) :
    ZwrPlace.run ⟨.begin, des, z, false⟩ = .ok (des ++ z, false) := by
  obtain ⟨sign, whole, fraction, rfl, nonempty, signs, all, point⟩ := number
  rcases signs with rfl | rfl
  · cases whole with
    | nil =>
      rcases point with rfl | ⟨digits, rfl, digit⟩
      · exact absurd rfl nonempty
      · have rest := run_fraction digit (des ++ [Ascii.dot])
        rw [List.append_assoc, List.singleton_append] at rest
        rw [List.nil_append, List.nil_append, ZwrPlace.run_cons]
        exact rest
    | cons ch whole =>
      have rest := run_numeric (fun c member => all c (List.mem_cons_of_mem _ member)) point
        (des ++ [ch])
      rw [List.append_assoc, List.singleton_append] at rest
      rw [List.nil_append, List.cons_append, run_number_start (.inr (all ch List.mem_cons_self))]
      exact rest
  · have rest := run_numeric all point (des ++ [Ascii.minus])
    rw [List.append_assoc, List.singleton_append] at rest
    rw [List.singleton_append, run_number_start (.inl rfl)]
    exact rest

end Ydb
