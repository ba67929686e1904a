import Ydb.ZwriteGrammar

/-!
# What the ZWRITE reader accepts

The loop of `zwr2format` never checks in which state it stops. Text that breaks off
inside a term is accepted, or it is read past its end; numbers are checked for their
characters only; and a code is read modulo `2 ^ 32`. Everything else that is not in the
grammar is rejected, and what is in it is read as it should be.
-/

namespace Ydb

open Lib

/-! ## Whole texts -/

theorem ZwrTerm.run {w out : List UInt8} (term : ZwrTerm ReadsCode w out) (des : List UInt8) :
    ZwrPlace.run ⟨.begin, des, w, false⟩ = .ok (des ++ out, true) ∧
      ∀ rest, ZwrPlace.run ⟨.begin, des, w ++ Ascii.underscore :: rest, false⟩ =
        ZwrPlace.run ⟨.begin, des ++ out, rest, false⟩ := by
  cases term with
  | quoted body =>
    obtain ⟨whole, more⟩ := body.run [] des false
    constructor
    · rw [ZwrPlace.run_cons]
      exact whole
    · intro rest
      rw [List.cons_append, ZwrPlace.run_cons]
      exact more rest
  | @list st opening items text out b opens codes last =>
    obtain ⟨_, _, whole, more⟩ := last.run opens.inList (des ++ out) false
    constructor
    · rw [opens.run, codes.run opens.inList, whole, List.append_assoc]
    · intro rest
      simp only [List.append_assoc, List.singleton_append]
      rw [opens.run, codes.run opens.inList, more, List.append_assoc]

theorem ZwrHeads.run {head out : List UInt8} (heads : ZwrHeads ReadsCode head out)
    (des tail : List UInt8) :
    ZwrPlace.run ⟨.begin, des, head ++ tail, false⟩ =
      ZwrPlace.run ⟨.begin, des ++ out, tail, false⟩ := by
  induction heads generalizing des with
  | nil => rw [List.nil_append, List.append_nil]
  | cons term _ ih =>
    rw [List.append_assoc, List.cons_append, (term.run des).2, ih,
      List.append_assoc]

theorem ZwrUnfinished.run {tail : List UInt8} (unfinished : ZwrUnfinished tail)
    (des : List UInt8) :
    ∃ kept, ZwrPlace.run ⟨.begin, des, tail, false⟩ = .ok (kept, false) := by
  cases unfinished with
  | nothing => exact ⟨des, rfl⟩
  | quoted body =>
    rw [ZwrPlace.run_cons]
    exact body.run [] des
  | @list st opening items out opens codes =>
    have read := codes.run opens.inList des []
    rw [List.append_nil] at read
    rw [opens.run, read]
    exact ⟨des ++ out, rfl⟩

theorem ZwrCut.run {tail : List UInt8} (cut : ZwrCut tail) (des : List UInt8) :
    ZwrPlace.run ⟨.begin, des, tail, false⟩ = .error .overrun := by
  cases cut with
  | opening opens split begun more => exact opens.cut split begun more des false
  | code opens codes last =>
    rw [opens.run, codes.run opens.inList]
    exact (last.run opens.inList _ false).1

/-- What may follow complete terms at the end of a text that is not rejected. -/
def ZwrTail (tail : List UInt8) : Prop :=
  (∃ out, ZwrTerm ReadsCode tail out) ∨ ZwrUnfinished tail ∨ ZwrCut tail ∨ ZwrNumeric tail

/-- Every text is rejected, or is complete terms followed by such a tail. -/
theorem begin_cases (n : Nat) (des cp : List UInt8) (short : cp.length ≤ n) :
    ZwrPlace.run ⟨.begin, des, cp, false⟩ = .error .invalid ∨
      ∃ head tail out, cp = head ++ tail ∧ ZwrHeads ReadsCode head out ∧ ZwrTail tail := by
  induction n generalizing des cp with
  | zero =>
    obtain rfl : cp = [] := List.eq_nil_of_length_eq_zero (Nat.le_zero.mp short)
    exact .inr ⟨[], [], [], rfl, .nil, .inr (.inl .nothing)⟩
  | succ n ih =>
    have alone {text : List UInt8} (tail : ZwrTail text) :
        ∃ head tail out, text = head ++ tail ∧ ZwrHeads ReadsCode head out ∧ ZwrTail tail :=
      ⟨[], text, [], rfl, .nil, tail⟩
    -- Behind a complete term and its underscore the reader starts again.
    have joined {w rest out : List UInt8} (term : ZwrTerm ReadsCode w out)
        (room : (w ++ Ascii.underscore :: rest).length ≤ n + 1) :
        ZwrPlace.run ⟨.begin, des, w ++ Ascii.underscore :: rest, false⟩ = .error .invalid ∨
          ∃ head tail out, w ++ Ascii.underscore :: rest = head ++ tail ∧
            ZwrHeads ReadsCode head out ∧ ZwrTail tail := by
      rw [List.length_append, List.length_cons] at room
      rw [(term.run des).2]
      rcases ih (des ++ out) rest (by omega) with
        rejected | ⟨head, tail, more, rfl, heads, ends⟩
      · exact .inl rejected
      · exact .inr ⟨w ++ Ascii.underscore :: head, tail, out ++ more, by simp, .cons term heads, ends⟩
    cases cp with
    | nil => exact .inr (alone (.inr (.inl .nothing)))
    | cons ch cp =>
      by_cases dollar : ch = Ascii.dollar
      · subst dollar
        rcases dollar_cases des cp false with rejected | cut | ⟨st, opening, rest, opens, whole⟩
        · exact .inl rejected
        · exact .inr (alone (.inr (.inr (.inl cut))))
        · rw [whole] at short ⊢
          rw [List.length_append] at short
          rcases list_cases _ opens.inList des rest le_rfl with
            rejected | ⟨items, out, codes, rfl | ⟨text, b, code, rfl | rfl | ⟨more, rfl⟩⟩⟩
          · rw [opens.run]
            exact .inl rejected
          · exact .inr (alone (.inr (.inl (.list opens codes))))
          · exact .inr (alone (.inr (.inr (.inl (.code opens codes code)))))
          · exact .inr (alone (.inl ⟨_, .list opens codes code⟩))
          · have term := ZwrTerm.list opens codes code
            have same : opening ++ (items ++ (text ++ Ascii.close_paren :: Ascii.underscore :: more)) =
                opening ++ (items ++ (text ++ [Ascii.close_paren])) ++ Ascii.underscore :: more := by
              simp
            rw [← List.length_append, same] at short
            rw [same]
            exact joined term short
      · by_cases quote : ch = Ascii.quote
        · subst quote
          rcases graphic_cases _ [] des cp le_rfl with
            rejected | unclosed | ⟨out, body⟩ | ⟨w, rest, out, body, rfl⟩
          · left
            rw [ZwrPlace.run_cons]
            exact rejected
          · exact .inr (alone (.inr (.inl (.quoted unclosed))))
          · exact .inr (alone (.inl ⟨out, .quoted body⟩))
          · exact joined (.quoted body) short
        · by_cases starts : ch = Ascii.minus ∨ isDigit ch = true
          · rw [run_number_start starts]
            rcases numeric_cases (des ++ [ch]) cp with rejected | ⟨whole, fraction, rfl, all, point⟩
            · exact .inl rejected
            · right
              apply alone
              refine .inr (.inr (.inr ?_))
              rcases starts with rfl | digit
              · exact ⟨[Ascii.minus], whole, fraction, rfl, by simp, .inr rfl, all, point⟩
              · exact ⟨[], ch :: whole, fraction, rfl, by simp, .inl rfl, by simpa [digit] using all,
                  point⟩
          · by_cases dot : ch = Ascii.dot
            · subst dot
              rcases fraction_cases (des ++ [Ascii.dot]) cp with rejected | all
              · left
                rw [ZwrPlace.run_cons]
                exact rejected
              · exact .inr (alone (.inr (.inr (.inr ⟨[], [], Ascii.dot :: cp, rfl, by simp, .inl rfl,
                  by simp, .inr ⟨cp, rfl, all⟩⟩))))
            · left
              have turn : zwrTurn .begin des ch cp = .error .invalid := by
                simp only [zwrTurn, dollar, quote, dot, starts, if_false]
              rw [ZwrPlace.run_cons, turn]
              rfl

/-! ## Codes that are numbers of one byte -/

theorem le_codeValue (num : Nat) (text : List UInt8) :
    num ≤ text.foldl (fun num ch => num * 10 + digitVal ch) num := by
  induction text generalizing num with
  | nil => exact le_rfl
  | cons ch text ih =>
    have further := ih (num * 10 + digitVal ch)
    rw [List.foldl_cons]
    omega

theorem a2iFrom_small {text : List UInt8} (digits : ∀ ch ∈ text, isDigit ch = true) (num : Nat)
    (small : text.foldl (fun num ch => num * 10 + digitVal ch) num < 256) :
    a2iFrom num text =
      (((text.foldl (fun num ch => num * 10 + digitVal ch) num : Nat) : Int), []) := by
  induction text generalizing num with
  | nil => rfl
  | cons ch text ih =>
    have digit : isDigit ch = true := digits ch List.mem_cons_self
    rw [List.foldl_cons] at small
    have low := le_codeValue (num * 10 + digitVal ch) text
    have noWrap : ((num : Int) * 10 + digitVal ch).bmod (2 ^ 32) = (num * 10 + digitVal ch : Nat) := by
      rw [Int.bmod_def]
      omega
    rw [a2iFrom, if_pos ⟨Int.natCast_nonneg num, digit⟩, noWrap, List.foldl_cons]
    exact ih (fun c member => digits c (List.mem_cons_of_mem _ member)) _ small

theorem IsCode.reads {text : List UInt8} {b : UInt8} (code : IsCode text b) : ReadsCode text b := by
  obtain ⟨some, digits, value⟩ := code
  refine ⟨some, digits, (a2i_eq (Int.natCast_nonneg _)).mpr ⟨?_, ?_⟩⟩
  · have small : codeValue text < 256 := by
      rw [value]
      exact b.toNat_lt
    have run := a2iFrom_small digits 0 small
    rw [Nat.cast_zero] at run
    rw [run, ← value]
    rfl
  · have filled := List.length_pos_iff.mpr some
    simp only [List.length_nil]
    omega

theorem ZwrItems.reads {items out : List UInt8} (codes : ZwrItems IsCode items out) :
    ZwrItems ReadsCode items out := by
  induction codes with
  | nil => exact .nil
  | cons code _ ih => exact .cons code.reads ih

theorem ZwrTerm.reads {w out : List UInt8} (term : ZwrTerm IsCode w out) :
    ZwrTerm ReadsCode w out := by
  cases term with
  | quoted body => exact .quoted body
  | list opens codes last => exact .list opens codes.reads last.reads

theorem ZwrHeads.reads {head out : List UInt8} (heads : ZwrHeads IsCode head out) :
    ZwrHeads ReadsCode head out := by
  induction heads with
  | nil => exact .nil
  | cons term _ ih => exact .cons term.reads ih

theorem ZwrTerms.reads {z out : List UInt8} (terms : ZwrTerms IsCode z out) :
    ZwrTerms ReadsCode z out := by
  obtain ⟨head, last, headOut, lastOut, whole, same, heads, term⟩ := terms
  exact ⟨head, last, headOut, lastOut, whole, same, heads.reads, term.reads⟩

theorem ZwrTerms.run {z out : List UInt8} (terms : ZwrTerms ReadsCode z out) :
    ZwrPlace.run ⟨.begin, [], z, false⟩ = .ok (out, true) := by
  obtain ⟨head, last, headOut, lastOut, rfl, rfl, heads, term⟩ := terms
  rw [heads.run, (term.run _).1, List.nil_append]

/-! ## Canonical numbers -/

theorem digitByte_all {ds : List Nat} (bounded : ∀ d ∈ ds, d < 10) :
    ∀ ch ∈ ds.map digitByte, isDigit ch = true := by
  intro ch member
  obtain ⟨d, inside, rfl⟩ := List.mem_map.mp member
  exact isDigit_digitByte d (bounded d inside)

theorem CanonicalText.numeric {z : List UInt8} (canonical : CanonicalText z) : ZwrNumeric z := by
  rcases canonical with rfl | ⟨d, _, rfl⟩
  · exact ⟨[], [Ascii.zero], [], rfl, by simp, .inl rfl, by simp [isDigit_zero], .inl rfl⟩
  · obtain ⟨c, rest, body, _⟩ := d.text_body
    have nonempty : d.text ≠ [] := by simp [body]
    have signs : Decimal.signText d.neg = [] ∨ Decimal.signText d.neg = [Ascii.minus] := by
      cases d.neg
      · exact .inl rfl
      · exact .inr rfl
    rcases d.text_shapes with ⟨n, _, _, text⟩ | ⟨whole, fraction, _, split, _, _, text⟩ | ⟨n, _, text⟩
    · refine ⟨_, _, [], by rw [text, List.append_nil], nonempty, signs, digitByte_all ?_, .inl rfl⟩
      exact bounded_append d.significant_lt (bounded_replicate _)
    · have bounded := d.significant_lt
      rw [split] at bounded
      refine ⟨_, _, _, text, nonempty, signs, digitByte_all fun e member => bounded e (by simp [member]),
        .inr ⟨_, rfl, digitByte_all fun e member => bounded e (by simp [member])⟩⟩
    · refine ⟨_, [], _, text, nonempty, signs, by simp, .inr ⟨_, rfl, ?_⟩⟩
      intro ch member
      rcases List.mem_append.mp member with zeros | digits
      · rw [List.eq_of_mem_replicate zeros]
        rfl
      · exact digitByte_all d.significant_lt ch digits

/-- The characters that terms start with. -/
def StartsTerm (z : List UInt8) : Prop := z.head? = some Ascii.quote ∨ z.head? = some Ascii.dollar

theorem ZwrOpening.starts {st : ZwrRead} {opening : List UInt8} (opens : ZwrOpening st opening)
    (rest : List UInt8) : StartsTerm (opening ++ rest) := by
  cases opens with
  | dollarC => exact .inr rfl
  | dollarZCH => exact .inr rfl

section Starts

variable {Code : List UInt8 → UInt8 → Prop}

theorem ZwrTerm.starts {w out : List UInt8} (term : ZwrTerm Code w out) (rest : List UInt8) :
    StartsTerm (w ++ rest) := by
  cases term with
  | quoted => exact .inl rfl
  | list opens =>
    rw [List.append_assoc]
    exact opens.starts _

theorem ZwrHeads.starts {head out tail : List UInt8} (heads : ZwrHeads Code head out)
    (begins : head ≠ [] ∨ StartsTerm tail) : StartsTerm (head ++ tail) := by
  cases heads with
  | nil => exact begins.resolve_left fun nonempty => nonempty rfl
  | cons term =>
    rw [List.append_assoc]
    exact term.starts _

end Starts

/-- No number starts like a term. -/
theorem CanonicalText.not_starts {z : List UInt8} (canonical : CanonicalText z) :
    ¬ StartsTerm z := by
  intro starts
  obtain ⟨sign, whole, fraction, rfl, nonempty, signs, all, point⟩ := canonical.numeric
  have digit {ch : UInt8} (starts : some ch = some Ascii.quote ∨ some ch = some Ascii.dollar) :
      isDigit ch ≠ true := by
    rcases starts with same | same <;> rw [Option.some.inj same] <;> decide
  rcases signs with rfl | rfl
  · cases whole with
    | nil =>
      rcases point with rfl | ⟨digits, rfl, _⟩
      · exact nonempty rfl
      · rcases starts with same | same <;> exact absurd (Option.some.inj same) (by decide)
    | cons ch whole => exact digit starts (all ch List.mem_cons_self)
  · rcases starts with same | same <;> exact absurd (Option.some.inj same) (by decide)

/-! ## The reader against the grammar -/

/-- The reader returns true for the texts of the grammar and no others, stays inside
the text, and delivers the bytes that the text denotes. -/
def ZwrReadRight (z : List UInt8) : Prop :=
  ((∃ out, zwr2formatWithin z = .ok out) ↔ ∃ out, ZwrDenotes z out) ∧
    zwr2formatWithin z ≠ .error .overrun ∧
    ∀ out, zwr2formatWithin z = .ok out → ZwrDenotes z out

theorem zwr2formatWithin_of_run {z out : List UInt8} {closed : Bool}
    (run : ZwrPlace.run ⟨.begin, [], z, false⟩ = .ok (out, closed)) :
    zwr2formatWithin z = .ok out := by
  rw [zwr2formatWithin, run]
  rfl

theorem ZwrDenotes.run {z out : List UInt8} (denotes : ZwrDenotes z out) :
    ∃ closed, ZwrPlace.run ⟨.begin, [], z, false⟩ = .ok (out, closed) := by
  rcases denotes with ⟨canonical, rfl⟩ | terms
  · exact ⟨false, canonical.numeric.run []⟩
  · exact ⟨true, terms.reads.run⟩

/-- The reader is right wherever it stays inside the text and accepts only texts of the
grammar. -/
theorem readRight_of_accepts {z : List UInt8} (inside : zwr2formatWithin z ≠ .error .overrun)
    (sound : ∀ out, zwr2formatWithin z = .ok out → ZwrDenotes z out) : ZwrReadRight z := by
  refine ⟨⟨?_, ?_⟩, inside, sound⟩
  · rintro ⟨out, accepted⟩
    exact ⟨out, sound out accepted⟩
  · rintro ⟨out, denotes⟩
    obtain ⟨closed, run⟩ := denotes.run
    exact ⟨out, zwr2formatWithin_of_run run⟩

/-- An accepted text that is not in the grammar. -/
theorem not_readRight {z out : List UInt8} {closed : Bool}
    (run : ZwrPlace.run ⟨.begin, [], z, false⟩ = .ok (out, closed))
    (notNumber : ¬ CanonicalText z) (notTerms : ∀ out, ¬ ZwrTerms IsCode z out) :
    ¬ ZwrReadRight z := by
  rintro ⟨_, _, sound⟩
  rcases sound out (zwr2formatWithin_of_run run) with ⟨canonical, _⟩ | terms
  · exact notNumber canonical
  · exact notTerms out terms

/-- Text that is accepted where no term ends is not in the grammar. -/
theorem not_terms_of_open {z out : List UInt8}
    (run : ZwrPlace.run ⟨.begin, [], z, false⟩ = .ok (out, false)) (out' : List UInt8) :
    ¬ ZwrTerms IsCode z out' := by
  intro terms
  rw [terms.reads.run] at run
  cases run

theorem ZwrMisread.not_readRight {z : List UInt8} (misread : ZwrMisread z) : ¬ ZwrReadRight z := by
  rcases misread with ⟨head, tail, out, rfl, heads, unfinished | cut | ⟨number, noncanonical⟩⟩ |
    ⟨⟨out, terms⟩, overflows⟩
  · obtain ⟨kept, run⟩ := unfinished.run ([] ++ out)
    rw [← heads.run] at run
    apply Ydb.not_readRight run _ (not_terms_of_open run)
    intro canonical
    by_cases nothing : head = [] ∧ tail = []
    · rw [nothing.1, nothing.2] at canonical
      obtain ⟨_, _, _, _, nonempty, _⟩ := canonical.numeric
      exact nonempty rfl
    · apply canonical.not_starts
      apply heads.starts
      by_cases first : head = []
      · right
        cases unfinished with
        | nothing => exact absurd ⟨first, rfl⟩ nothing
        | quoted => exact .inl rfl
        | list opens => exact opens.starts _
      · exact .inl first
  · rintro ⟨_, inside, _⟩
    apply inside
    rw [zwr2formatWithin, heads.run, cut.run]
    rfl
  · have run := number.run ([] ++ out)
    rw [← heads.run] at run
    apply Ydb.not_readRight run _ (not_terms_of_open run)
    intro canonical
    by_cases first : head = []
    · subst first
      exact noncanonical ⟨rfl, canonical⟩
    · exact canonical.not_starts (heads.starts (.inl first))
  · apply Ydb.not_readRight terms.run _ overflows
    intro canonical
    obtain ⟨head, last, _, _, rfl, _, heads, term⟩ := terms
    apply canonical.not_starts
    apply heads.starts
    right
    have starts := term.starts []
    rwa [List.append_nil] at starts

/-- The reader accepts exactly the texts of the grammar, reads within them and delivers
what they denote, unless complete terms are followed by text that breaks off, by a
number that is not alone or not canonical, or a code is too large for 32 bits. -/
theorem zwr2format_right_iff_not_misread (z : List UInt8) : ZwrReadRight z ↔ ¬ ZwrMisread z := by
  constructor
  · intro right misread
    exact misread.not_readRight right
  · intro notMisread
    rcases begin_cases _ [] z le_rfl with rejected | ⟨head, tail, out, rfl, heads, ends⟩
    · have error : zwr2formatWithin z = .error .invalid := by
        rw [zwr2formatWithin, rejected]
        rfl
      apply readRight_of_accepts
      · rw [error]
        intro same
        cases same
      · intro out accepted
        rw [error] at accepted
        cases accepted
    · rcases ends with ⟨termOut, term⟩ | unfinished | cut | number
      · have terms : ZwrTerms ReadsCode (head ++ tail) (out ++ termOut) :=
          ⟨head, tail, out, termOut, rfl, rfl, heads, term⟩
        have exact' : ∃ out', ZwrTerms IsCode (head ++ tail) out' := by
          by_contra none
          exact notMisread (.inr ⟨⟨_, terms⟩, fun out' strict => none ⟨out', strict⟩⟩)
        obtain ⟨out', strict⟩ := exact'
        have accepts := zwr2formatWithin_of_run strict.reads.run
        apply readRight_of_accepts
        · rw [accepts]
          intro same
          cases same
        · intro result accepted
          rw [accepts] at accepted
          rw [← Except.ok.inj accepted]
          exact .inr strict
      · exact absurd (.inl ⟨head, tail, out, rfl, heads, .inl unfinished⟩) notMisread
      · exact absurd (.inl ⟨head, tail, out, rfl, heads, .inr (.inl cut)⟩) notMisread
      · by_cases canonical : head = [] ∧ CanonicalText tail
        · obtain ⟨rfl, canonical⟩ := canonical
          have accepts := zwr2formatWithin_of_run (canonical.numeric.run [])
          apply readRight_of_accepts
          · rw [List.nil_append, accepts]
            intro same
            cases same
          · intro result accepted
            rw [List.nil_append, accepts] at accepted
            rw [← Except.ok.inj accepted]
            exact .inl ⟨canonical, rfl⟩
        · exact absurd (.inl ⟨head, tail, out, rfl, heads, .inr (.inr ⟨number, canonical⟩)⟩)
            notMisread

/-- An open quoted string is accepted and its text is lost. -/
theorem zwr2format_accepts_an_open_quote :
    zwr2formatWithin [Ascii.quote, Ascii.upperC] = .ok [] ∧
      ¬ ZwrReadRight [Ascii.quote, Ascii.upperC] := by
  refine ⟨rfl, ZwrMisread.not_readRight (.inl ⟨[], _, [], rfl, .nil, .inl ?_⟩)⟩
  exact .quoted (.char (by decide) .nil)

end Ydb
