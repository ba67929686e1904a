import Ydb.SubscriptExtraction

/-!
# What is extracted

The scan of `op_fnqsubscript` on a subscript by its parts. A quoted segment gives its content and a call
the characters that its codes pass for; both end where recognition has found their ends.
-/

namespace Ydb.QSubscript

open Lib NameParse

section

variable {stop : Nat} {reserved : Int}

/-! ## Quoted segments -/

/-- There is room for what is left of the component. -/
def Room (stop : Nat) (reserved : Int) (isrc : Nat) (dst : List UInt8) : Prop :=
  (dst.length : Int) + stop < reserved + isrc

theorem Room.write {isrc : Nat} {dst : List UInt8} (room : Room stop reserved isrc dst)
    (inside : isrc ≤ stop) (letter : UInt8) : write reserved letter dst = some (dst ++ [letter]) := by
  unfold Room at room
  exact if_pos (by omega)

theorem Room.snoc {isrc : Nat} {dst : List UInt8} (room : Room stop reserved isrc dst)
    (letter : UInt8) : Room stop reserved (isrc + 1) (dst ++ [letter]) := by
  unfold Room at room ⊢
  rw [List.length_append, List.length_singleton]
  omega

theorem Room.later {isrc : Nat} {dst : List UInt8} (room : Room stop reserved isrc dst) {place : Nat}
    (later : isrc ≤ place) : Room stop reserved place dst := by
  unfold Room at room ⊢
  omega

theorem Room.after {isrc : Nat} {dst : List UInt8} (room : Room stop reserved isrc dst)
    {added : List UInt8} {passed : Nat} (fits : added.length ≤ passed) :
    Room stop reserved (isrc + passed) (dst ++ added) := by
  unfold Room at room ⊢
  rw [List.length_append]
  omega

/-- The scan ends with a string. -/
def Yields (stop : Nat) (reserved : Int) (s : Scan) (out : List UInt8) : Prop :=
  ∀ turns, s.src.length < turns → scan stop reserved turns s = some out

theorem yields_end {s : Scan} (ended : stop ≤ s.isrc) : Yields stop reserved s s.dst := by
  intro turns enough
  cases turns with
  | zero => exact absurd enough (Nat.not_lt_zero _)
  | succ turns => exact if_neg (Nat.not_lt.mpr ended)

theorem scan_quote (turns : Nat) (src : List UInt8) {isrc : Nat} (instring : Bool) (dst : List UInt8)
    (inside : isrc < stop) :
    scan stop reserved (turns + 1) ⟨Ascii.quote :: src, isrc, instring, dst⟩ =
      (quotes stop reserved src (isrc + 1) instring dst).bind
        (afterQuotes stop reserved dst.length (scan stop reserved turns)) := by
  rw [scan, if_pos inside]
  dsimp only
  rw [List.head?_cons, Option.bind_some, if_pos rfl, List.tail_cons]

theorem scan_letter (turns : Nat) {letter : UInt8} (other : letter ≠ Ascii.quote) (src : List UInt8)
    {isrc : Nat} (instring : Bool) (dst : List UInt8) (inside : isrc < stop) :
    scan stop reserved (turns + 1) ⟨letter :: src, isrc, instring, dst⟩ =
      (takeLetter stop reserved letter ⟨src, isrc + 1, instring, dst⟩).bind
        (scan stop reserved turns) := by
  rw [scan, if_pos inside]
  dsimp only
  rw [List.head?_cons, Option.bind_some, if_neg other, List.tail_cons]

/-- What stands behind the closing quote of a segment, and what the scan makes of it. -/
structure Closes (stop : Nat) (reserved : Int) (next : UInt8) (tail : List UInt8) (place : Nat)
    (full out : List UInt8) : Prop where
  notQuote : next ≠ Ascii.quote
  inside : place ≤ stop
  more : place + 1 ≠ stop
  goes : ∀ turns, tail.length < turns →
    (takeLetter stop reserved next ⟨tail, place + 1, false, full⟩).bind (scan stop reserved turns) =
      some out

/-- What is left of a quoted segment, with what stands behind it. -/
def leftText (content : List UInt8) (next : UInt8) (tail : List UInt8) : List UInt8 :=
  doubled content ++ Ascii.quote :: next :: tail

/-- The scan inside quotes, from a letter and from a quote that has just been read. -/
structure Copies (stop : Nat) (reserved : Int) (text : List UInt8) (isrc : Nat)
    (dst out : List UInt8) : Prop where
  whole : Yields stop reserved ⟨text, isrc, true, dst⟩ out
  run : ∀ src, text = Ascii.quote :: src → ∀ ch_int ≤ dst.length, ∀ turns, src.length < turns →
    (quotes stop reserved src (isrc + 1) true dst).bind
      (afterQuotes stop reserved ch_int (scan stop reserved turns)) = some out

/-- The scan on a text that starts with a quote follows from the run of quotes. -/
theorem Copies.of_run {src : List UInt8} {isrc : Nat} {dst out : List UInt8} (inside : isrc < stop)
    (run : ∀ ch_int ≤ dst.length, ∀ turns, src.length < turns →
      (quotes stop reserved src (isrc + 1) true dst).bind
        (afterQuotes stop reserved ch_int (scan stop reserved turns)) = some out) :
    Copies stop reserved (Ascii.quote :: src) isrc dst out := by
  constructor
  · intro turns enough
    cases turns with
    | zero => exact absurd enough (Nat.not_lt_zero _)
    | succ turns =>
      rw [scan_quote turns src true dst inside]
      exact run dst.length (Nat.le_refl _) turns (Nat.lt_of_succ_lt_succ enough)
  · intro behind same
    obtain rfl : src = behind := (List.cons.inj same).2
    exact run

/-- A quote opens the string, at its start or behind a quote that seemed to close it. -/
theorem Copies.opened {content : List UInt8} {next : UInt8} {tail : List UInt8} {isrc : Nat}
    {dst out : List UInt8} (copies : Copies stop reserved (leftText content next tail) isrc dst out)
    (inside : isrc + (doubled content).length + 1 ≤ stop) {ch_int : Nat} (least : ch_int ≤ dst.length)
    {turns : Nat} (enough : (leftText content next tail).length < turns) :
    (quotes stop reserved (leftText content next tail) isrc false dst).bind
      (afterQuotes stop reserved ch_int (scan stop reserved turns)) = some out := by
  cases text : leftText content next tail with
  | nil => exact absurd text (by simp [leftText])
  | cons letter src =>
    rw [text] at enough copies
    have read : quotes stop reserved (letter :: src) isrc false dst =
        if letter = Ascii.quote ∧ isrc + 1 ≤ stop then quotes stop reserved src (isrc + 1) true dst
        else some (letter, ⟨src, isrc + 1, true, dst⟩) := rfl
    rw [read]
    by_cases quote : letter = Ascii.quote
    · rw [if_pos ⟨quote, by omega⟩]
      apply copies.run src (by rw [quote]) ch_int least
      exact Nat.lt_of_succ_lt enough
    · rw [if_neg fun both => quote both.1, Option.bind_some]
      -- a letter that is no quote is not the last of the segment
      have longer : 0 < (doubled content).length := by
        cases content with
        | nil => exact absurd (List.cons.inj text).1.symm quote
        | cons ch content =>
          rw [List.length_pos_iff, doubled, List.flatMap_cons]
          split <;> simp
      have kept : loseQuote ch_int ⟨src, isrc + 1, true, dst⟩ = ⟨src, isrc + 1, true, dst⟩ :=
        if_neg fun both => Bool.noConfusion both.1
      have later : isrc + 1 ≠ stop := by omega
      have goes := copies.whole (turns + 1) (Nat.lt_succ_of_lt enough)
      rw [scan_letter turns quote src true dst (by omega)] at goes
      unfold afterQuotes
      rw [kept]
      exact (if_neg later).trans goes

/-- The content of a quoted segment is copied. -/
theorem copies_content {next : UInt8} {tail : List UInt8} {place : Nat} {full out : List UInt8}
    (closes : Closes stop reserved next tail place full out) {content : List UInt8} {isrc : Nat}
    {dst : List UInt8} (ends : isrc + (doubled content).length + 1 = place)
    (whole : dst ++ content = full) (room : Room stop reserved isrc dst) :
    Copies stop reserved (leftText content next tail) isrc dst out := by
  have inside := closes.inside
  induction content generalizing isrc dst with
  | nil =>
    obtain rfl : isrc + 1 = place := ends
    apply Copies.of_run (by omega)
    intro ch_int least turns enough
    have read : quotes stop reserved (next :: tail) (isrc + 1) true dst =
        some (next, ⟨tail, isrc + 1 + 1, false, dst ++ [Ascii.quote]⟩) := by
      rw [quotes, if_pos rfl, room.write (by omega), Option.bind_some,
        if_neg fun both => closes.notQuote both.1]
      rfl
    rw [read, Option.bind_some]
    have lost : loseQuote ch_int ⟨tail, isrc + 1 + 1, false, dst ++ [Ascii.quote]⟩ =
        ⟨tail, isrc + 1 + 1, false, full⟩ := by
      unfold loseQuote
      rw [if_pos ⟨rfl, by simpa using Nat.lt_succ_of_le least⟩, List.dropLast_concat, ← whole,
        List.append_nil]
    unfold afterQuotes
    rw [lost]
    exact (if_neg closes.more).trans (closes.goes turns (Nat.lt_of_succ_lt enough))
  | cons ch content ih =>
    by_cases quote : ch = Ascii.quote
    · subst quote
      rw [doubled_quote, List.length_cons, List.length_cons] at ends
      have text : leftText (Ascii.quote :: content) next tail =
          Ascii.quote :: Ascii.quote :: leftText content next tail := rfl
      rw [text]
      have copies := @ih (isrc + 2) (dst ++ [Ascii.quote]) (by omega)
        (by rw [List.append_assoc]; exact whole) ((room.snoc Ascii.quote).later (Nat.le_succ _))
      apply Copies.of_run (by omega)
      intro ch_int least turns enough
      have read : quotes stop reserved (Ascii.quote :: leftText content next tail) (isrc + 1) true dst =
          quotes stop reserved (leftText content next tail) (isrc + 2) false (dst ++ [Ascii.quote]) := by
        rw [quotes, if_pos rfl, room.write (by omega), Option.bind_some, if_pos ⟨rfl, by omega⟩]
        rfl
      rw [read]
      apply copies.opened (by omega) _ (Nat.lt_of_succ_lt enough)
      rw [List.length_append]
      exact Nat.le_add_right_of_le least
    · rw [doubled_plain quote, List.length_cons] at ends
      have text : leftText (ch :: content) next tail = ch :: leftText content next tail := by
        rw [leftText, doubled_plain quote, List.cons_append]
        rfl
      rw [text]
      have copies := @ih (isrc + 1) (dst ++ [ch]) (by omega)
        (by rw [List.append_assoc]; exact whole) (room.snoc ch)
      constructor
      · intro turns enough
        cases turns with
        | zero => exact absurd enough (Nat.not_lt_zero _)
        | succ turns =>
          rw [scan_letter turns quote _ true dst (by omega)]
          have written : takeLetter stop reserved ch
              ⟨leftText content next tail, isrc + 1, true, dst⟩ =
              some ⟨leftText content next tail, isrc + 1, true, dst ++ [ch]⟩ := by
            unfold takeLetter
            rw [if_pos rfl, room.write (by omega)]
            rfl
          rw [written, Option.bind_some]
          exact copies.whole turns (Nat.lt_of_succ_lt_succ enough)
      · intro src same
        exact absurd (List.cons.inj same).1 quote

/-- A quoted segment gives its content. -/
theorem yields_quoted {next : UInt8} {tail : List UInt8} {content : List UInt8} {isrc : Nat}
    {dst out : List UInt8} (room : Room stop reserved isrc dst)
    (closes : Closes stop reserved next tail (isrc + (Segment.quoted content).text.length)
      (dst ++ content) out) :
    Yields stop reserved ⟨(Segment.quoted content).text ++ next :: tail, isrc, false, dst⟩ out := by
  have size : (Segment.quoted content).text.length = (doubled content).length + 2 := by
    simp [Segment.text]
  have inside := closes.inside
  have text : (Segment.quoted content).text ++ next :: tail =
      Ascii.quote :: leftText content next tail := by
    simp [Segment.text, leftText]
  rw [text]
  intro turns enough
  cases turns with
  | zero => exact absurd enough (Nat.not_lt_zero _)
  | succ turns =>
    rw [scan_quote turns _ false dst (by omega)]
    have copies := @copies_content stop reserved next tail _ _ out closes content (isrc + 1) dst
      (by omega) rfl (room.later (Nat.le_succ _))
    exact copies.opened (by omega) (Nat.le_refl _) (Nat.lt_of_succ_lt_succ enough)

/-! ## Calls -/

/-- The characters that a code passes for. -/
def scannedCode (code : List UInt8) : List UInt8 := (codeByte code).toList

theorem scanCodes_digits {digits : List UInt8} (all : AllDigits digits) (src before : List UInt8)
    (isrc : Nat) (dst : List UInt8) :
    scanCodes reserved (digits ++ src) before isrc dst =
      scanCodes reserved src (before ++ digits) (isrc + digits.length) dst := by
  induction digits generalizing before isrc with
  | nil => simp
  | cons ch digits ih =>
    obtain ⟨digit, all⟩ := List.forall_mem_cons.mp all
    rw [List.cons_append, scanCodes, if_pos digit, ih all, List.append_assoc,
      List.singleton_append, List.length_cons, Nat.add_assoc, Nat.add_comm 1]

/-- A code has room for its character. -/
theorem write_code {isrc : Nat} {dst : List UInt8} (room : Room stop reserved isrc dst)
    (inside : isrc ≤ stop) (code : List UInt8) :
    (codeByte code).elim (some dst) (fun byte => write reserved byte dst) =
        some (dst ++ scannedCode code) ∧
      Room stop reserved (isrc + 1) (dst ++ scannedCode code) := by
  unfold scannedCode
  cases codeByte code with
  | none =>
    rw [Option.toList_none, List.append_nil]
    exact ⟨rfl, room.later (Nat.le_succ _)⟩
  | some byte => exact ⟨room.write inside byte, room.snoc byte⟩

theorem scanCodes_call {first : List UInt8} {more : List (List UInt8)} (all : AllDigits first)
    (good : ∀ code ∈ more, code ≠ [] ∧ AllDigits code) (rest : List UInt8) {isrc : Nat}
    {dst : List UInt8} (room : Room stop reserved isrc dst)
    (inside : isrc + (first.length + (moreText more).length) ≤ stop) :
    scanCodes reserved (first ++ (moreText more ++ Ascii.close_paren :: rest)) [] isrc dst =
      some (rest, isrc + (first.length + (moreText more).length) + 1,
        dst ++ (first :: more).flatMap scannedCode) := by
  induction more generalizing first isrc dst with
  | nil =>
    have size : (moreText []).length = 0 := rfl
    rw [size] at inside
    obtain ⟨written, _⟩ := write_code (room.later (Nat.le_add_right isrc first.length)) (by omega) first
    rw [scanCodes_digits all, List.nil_append]
    change scanCodes reserved (Ascii.close_paren :: rest) first (isrc + first.length) dst = _
    rw [scanCodes, if_neg (by decide), written, Option.bind_some, if_neg (by decide), size,
      List.flatMap_cons, List.flatMap_nil, List.append_nil]
    rfl
  | cons code more ih =>
    obtain ⟨⟨_, digits⟩, good⟩ := List.forall_mem_cons.mp good
    have size : (moreText (code :: more)).length = code.length + (moreText more).length + 1 := by
      simp [moreText]
    rw [size] at inside
    obtain ⟨written, room'⟩ := write_code (room.later (Nat.le_add_right isrc first.length)) (by omega)
      first
    have text : moreText (code :: more) ++ Ascii.close_paren :: rest =
        Ascii.comma :: (code ++ (moreText more ++ Ascii.close_paren :: rest)) := by
      simp [moreText]
    rw [scanCodes_digits all, List.nil_append, text, scanCodes, if_neg (by decide), written,
      Option.bind_some, if_pos rfl, ih digits good room' (by omega), size,
      List.flatMap_cons, List.append_assoc]
    congr 3
    omega

theorem skipPast_eq {letter : UInt8} {passed : List UInt8} (other : ∀ ch ∈ passed, ch ≠ letter)
    (src : List UInt8) (isrc : Nat) :
    skipPast letter (passed ++ letter :: src) isrc = some (src, isrc + passed.length + 1) := by
  induction passed generalizing isrc with
  | nil => exact if_pos rfl
  | cons ch passed ih =>
    obtain ⟨here, other⟩ := List.forall_mem_cons.mp other
    rw [List.cons_append, skipPast, if_neg here, ih other, List.length_cons,
      Nat.add_right_comm isrc 1, Nat.add_assoc isrc passed.length 1]

/-- There is no parenthesis in the name of a call. -/
theorem name_letters {name : List UInt8} (named : CharName name ∨ Misspelt name) :
    ∃ letter letters, name = letter :: letters ∧ ∀ ch ∈ letters, ch ≠ Ascii.open_paren := by
  have letter : ∀ {upper c : UInt8}, isLetter upper c = true → upper = Ascii.upperC ∨
      upper = Ascii.upperH ∨ upper = 0x41 ∨ upper = 0x52 → c ≠ Ascii.open_paren := by
    intro upper c isLetter upperCase
    apply NameParse.isLetter_ne_paren isLetter
    rcases upperCase with rfl | rfl | rfl | rfl <;> decide
  rcases named with named | named
  · cases named with
    | c isC => exact ⟨_, [], rfl, by simp⟩
    | char isC isH isA isR =>
      refine ⟨_, _, rfl, ?_⟩
      simp [letter isH (by simp), letter isA (by simp), letter isR (by simp)]
    | zch isZ isC isH =>
      refine ⟨_, _, rfl, ?_⟩
      simp [letter isC (by simp), letter isH (by simp)]
    | zchar isZ isC isH isA isR =>
      refine ⟨_, _, rfl, ?_⟩
      simp [letter isC (by simp), letter isH (by simp), letter isA (by simp), letter isR (by simp)]
  · cases named with
    | mk isC notH notParen isR =>
      refine ⟨_, _, rfl, ?_⟩
      simp [notParen, letter isR (by simp)]

/-- A call gives the characters that its codes pass for. The character behind it is skipped. -/
theorem takeLetter_call {name first : List UInt8} {more : List (List UInt8)}
    (passes : (Segment.call name first more).Passes) (next : UInt8) (tail : List UInt8) {isrc : Nat}
    {dst : List UInt8} (room : Room stop reserved isrc dst)
    (inside : isrc + (callText name first (moreText more)).length ≤ stop) :
    takeLetter stop reserved Ascii.dollar
      ⟨callText name first (moreText more) ++ next :: tail, isrc, false, dst⟩ =
      some ⟨tail, isrc + (callText name first (moreText more)).length + 1, false,
        dst ++ (first :: more).flatMap scannedCode⟩ := by
  obtain ⟨named, all, good⟩ := passes
  obtain ⟨letter, letters, rfl, noParen⟩ := name_letters named
  have size : (callText (letter :: letters) first (moreText more)).length =
      letters.length + (first.length + (moreText more).length) + 3 := by
    simp [callText]
    omega
  have text : callText (letter :: letters) first (moreText more) ++ next :: tail =
      letter :: (letters ++ Ascii.open_paren ::
        (first ++ (moreText more ++ Ascii.close_paren :: next :: tail))) := by
    simp [callText]
  rw [size] at inside ⊢
  have coded := scanCodes_call all good (next :: tail)
    (room.later (Nat.le_add_right isrc (1 + letters.length + 1))) (by omega)
  rw [text]
  unfold takeLetter takeCall
  rw [if_neg Bool.false_ne_true, if_pos (by dsimp only; omega), if_pos rfl, Option.bind_some]
  dsimp only
  rw [List.head?_cons, Option.bind_some, List.tail_cons, skipPast_eq noParen, Option.bind_some]
  dsimp only
  have place : isrc + 1 + letters.length + 1 = isrc + (1 + letters.length + 1) := by omega
  rw [place, coded, Option.map_some]
  dsimp only
  rw [List.tail_cons]
  congr 2
  omega

/-- Behind a quoted segment the dollar sign of the call is looked for. -/
theorem takeLetter_underscore (src : List UInt8) {isrc : Nat} (dst : List UInt8)
    (inside : isrc + 1 < stop) :
    takeLetter stop reserved Ascii.underscore ⟨Ascii.dollar :: src, isrc, false, dst⟩ =
      takeLetter stop reserved Ascii.dollar ⟨src, isrc + 1, false, dst⟩ := by
  have found : skipPast Ascii.dollar (Ascii.dollar :: src) isrc = some (src, isrc + 1) := if_pos rfl
  unfold takeLetter takeCall
  rw [if_neg Bool.false_ne_true, if_pos (Nat.lt_of_succ_lt inside), if_neg (by decide), found,
    if_neg Bool.false_ne_true, if_pos inside, if_pos rfl]

/-! ## Whole subscripts -/

namespace Segment

/-- What is copied for a segment. -/
def scanned : Segment → List UInt8
  | quoted content => content
  | call _ first more => (first :: more).flatMap scannedCode

theorem scanned_length_le (segment : Segment) : segment.scanned.length ≤ segment.text.length := by
  cases segment with
  | quoted content =>
    rw [scanned, text, List.length_cons, List.length_append]
    have longer : content.length ≤ (doubled content).length := by
      induction content with
      | nil => exact Nat.le_refl _
      | cons ch content ih =>
        by_cases quote : ch = Ascii.quote
        · rw [quote, doubled_quote]
          exact Nat.le_succ_of_le (Nat.succ_le_succ ih)
        · rw [doubled_plain quote]
          exact Nat.succ_le_succ ih
    omega
  | call name first more =>
    have single : ∀ code, (scannedCode code).length ≤ 1 := by
      intro code
      unfold scannedCode
      cases codeByte code with
      | none => exact Nat.zero_le 1
      | some byte => exact Nat.le_refl 1
    have listed : (more.flatMap scannedCode).length ≤ (moreText more).length := by
      induction more with
      | nil => exact Nat.le_refl _
      | cons code more ih =>
        have here := single code
        have size : (moreText (code :: more)).length = code.length + (moreText more).length + 1 := by
          simp [moreText]
        rw [List.flatMap_cons, List.length_append, size]
        omega
    have here := single first
    rw [scanned, text, callText, List.flatMap_cons]
    simp only [List.length_cons, List.length_append]
    omega

end Segment

theorem yields_call {name first : List UInt8} {more : List (List UInt8)}
    (passes : (Segment.call name first more).Passes) (next : UInt8) (tail : List UInt8) {isrc : Nat}
    {dst out : List UInt8} (room : Room stop reserved isrc dst)
    (inside : isrc + (Segment.call name first more).text.length ≤ stop)
    (behind : Yields stop reserved ⟨tail, isrc + (Segment.call name first more).text.length + 1, false,
      dst ++ (Segment.call name first more).scanned⟩ out) :
    Yields stop reserved ⟨(Segment.call name first more).text ++ next :: tail, isrc, false, dst⟩ out := by
  have size : (Segment.call name first more).text.length =
      1 + (callText name first (moreText more)).length := by
    rw [Segment.text, List.length_cons, Nat.add_comm]
  rw [size, ← Nat.add_assoc] at inside behind
  intro turns enough
  cases turns with
  | zero => exact absurd enough (Nat.not_lt_zero _)
  | succ turns =>
    have text : (Segment.call name first more).text ++ next :: tail =
        Ascii.dollar :: (callText name first (moreText more) ++ next :: tail) := rfl
    rw [text] at enough ⊢
    rw [scan_letter turns (by decide) _ false dst (by omega),
      takeLetter_call passes next tail (room.later (Nat.le_succ _)) inside, Option.bind_some]
    apply behind turns
    simp only [List.length_cons, List.length_append] at enough ⊢
    omega

/-- Segments joined by underscores give what is copied for each. -/
theorem yields_joined {first : Segment} {more : List Segment}
    (passes : (SubscriptText.joined first more).Passes) {term : UInt8} (notQuote : term ≠ Ascii.quote)
    (tail : List UInt8) {isrc : Nat} {dst : List UInt8} (room : Room stop reserved isrc dst)
    (ends : isrc + (joinedText first more).length = stop) :
    Yields stop reserved ⟨joinedText first more ++ term :: tail, isrc, false, dst⟩
      (dst ++ (first :: more).flatMap Segment.scanned) := by
  induction more generalizing first isrc dst with
  | nil =>
    rw [List.flatMap_cons, List.flatMap_nil, List.append_nil]
    have text : joinedText first [] = first.text := rfl
    rw [text] at ends ⊢
    cases first with
    | quoted content =>
      apply yields_quoted room
      refine ⟨notQuote, Nat.le_of_eq ends, ?_, ?_⟩
      · rw [ends]
        exact Nat.succ_ne_self stop
      · intro turns enough
        have over_ : takeLetter stop reserved term ⟨tail, isrc + (Segment.quoted content).text.length + 1,
            false, dst ++ content⟩ = some ⟨tail, isrc + (Segment.quoted content).text.length + 1, false,
              dst ++ content⟩ := by
          unfold takeLetter
          rw [if_neg Bool.false_ne_true, if_neg (by dsimp only; omega)]
        rw [over_, Option.bind_some]
        exact yields_end (by dsimp only; omega) turns enough
    | call name first codes =>
      apply yields_call (passes.1 _ List.mem_cons_self) term tail room (Nat.le_of_eq ends)
      exact yields_end (by dsimp only; omega)
  | cons next more ih =>
    obtain ⟨good, chain⟩ := passes
    obtain ⟨here, others⟩ := List.forall_mem_cons.mp good
    obtain ⟨alternates, linked⟩ := List.isChain_cons_cons.mp chain
    have text : joinedText first (next :: more) ++ term :: tail =
        first.text ++ Ascii.underscore :: (joinedText next more ++ term :: tail) := by
      simp [joinedText]
    have size : (joinedText first (next :: more)).length =
        first.text.length + 1 + (joinedText next more).length := by
      rw [joinedText, List.length_append, List.length_cons]
      omega
    rw [size] at ends
    have room' : Room stop reserved (isrc + first.text.length + 1) (dst ++ first.scanned) :=
      (room.after first.scanned_length_le).later (Nat.le_succ _)
    have behind := ih ⟨others, linked⟩ room' (by omega)
    rw [text, List.flatMap_cons, ← List.append_assoc]
    cases first with
    | quoted content =>
      apply yields_quoted room
      cases next with
      | quoted second => exact absurd ⟨rfl, rfl⟩ alternates
      | call name codes rest =>
        obtain ⟨letter, letters, rfl, _⟩ := name_letters (others _ List.mem_cons_self).1
        obtain ⟨body, opened⟩ : ∃ body, joinedText (.call (letter :: letters) codes rest) more =
            Ascii.dollar :: letter :: body := by
          cases more with
          | nil => exact ⟨_, rfl⟩
          | cons second more => exact ⟨_, rfl⟩
        rw [opened, List.length_cons, List.length_cons] at ends
        refine ⟨by decide, by omega, by omega, ?_⟩
        intro turns enough
        rw [opened, List.cons_append] at enough behind ⊢
        have goes := behind (turns + 1) (Nat.lt_succ_of_lt enough)
        rw [scan_letter turns (by decide) _ false _ (by omega)] at goes
        rw [takeLetter_underscore _ _ (by omega)]
        exact goes
    | call name codes others => exact yields_call here Ascii.underscore _ room (by omega) behind

end

end Ydb.QSubscript
