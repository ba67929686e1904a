import Ydb.SubscriptAgreement

/-!
# The function for subscripts

`$QSUBSCRIPT` gives what a subscript denotes, with two exceptions. A code whose number is too large for
an integer is not always noticed. And an environment whose second component is a zero or ends with a call
shifts the noted ends of the subscripts, so that nothing is copied.
-/

namespace Ydb.QSubscript

open Lib NameParse

/-! ## Codes -/

/-- A number that is too large for a byte and is taken for one: its low 32 bits are a byte, and the
sign bit has not been set by any of its first digits. -/
def Slips (code : List UInt8) : Prop :=
  255 < decimal code ∧ decimal code % 2 ^ 32 < 256 ∧
    ∀ k ≤ code.length, decimal (code.take k) % 2 ^ 32 < 2 ^ 31

theorem int4Value_small {n : Nat} (small : n % 2 ^ 32 < 2 ^ 31) : int4Value (n : Int) = (n % 2 ^ 32 : Nat) := by
  unfold int4Value Int.bmod
  rw [if_pos (by omega)]
  exact (Int.natCast_mod n (2 ^ 32)).symm

theorem int4Value_large {n : Nat} (large : ¬ n % 2 ^ 32 < 2 ^ 31) : int4Value (n : Int) < 0 := by
  unfold int4Value Int.bmod
  rw [if_neg (by omega)]
  omega

/-- The numbers of the first digits behind an accumulated one leave the sign bit clear. -/
def Positive (acc : Nat) (digits : List UInt8) : Prop :=
  ∀ k ≤ digits.length, evalFrom 10 acc ((digits.take k).map digitVal) % 2 ^ 32 < 2 ^ 31

instance (acc : Nat) (digits : List UInt8) : Decidable (Positive acc digits) :=
  inferInstanceAs (Decidable (∀ k ≤ digits.length,
    evalFrom 10 acc ((digits.take k).map digitVal) % 2 ^ 32 < 2 ^ 31))

theorem positive_cons {acc : Nat} {ch : UInt8} {digits : List UInt8} (small : acc % 2 ^ 32 < 2 ^ 31) :
    Positive acc (ch :: digits) ↔ Positive (acc * 10 + digitVal ch) digits := by
  constructor
  · intro positive k within
    exact positive (k + 1) (Nat.succ_le_succ within)
  · intro positive k within
    cases k with
    | zero => exact small
    | succ k => exact positive k (Nat.le_of_succ_le_succ within)

theorem int4Value_step (acc d : Nat) :
    int4Value (((acc % 2 ^ 32 : Nat) : Int) * 10 + d) = int4Value ((acc * 10 + d : Nat) : Int) := by
  unfold int4Value
  rw [← Int.emod_bmod, ← Int.emod_bmod ((acc * 10 + d : Nat) : Int)]
  congr 1
  omega

theorem a2iLoop_spec (digits : List UInt8) {acc : Nat} (small : acc % 2 ^ 32 < 2 ^ 31) :
    (Positive acc digits ∧
      a2iLoop (acc % 2 ^ 32 : Nat) digits = (evalFrom 10 acc (digits.map digitVal) % 2 ^ 32 : Nat)) ∨
    (¬ Positive acc digits ∧ a2iLoop (acc % 2 ^ 32 : Nat) digits < 0) := by
  induction digits generalizing acc with
  | nil =>
    refine .inl ⟨?_, rfl⟩
    intro k _
    rw [List.take_nil]
    exact small
  | cons ch digits ih =>
    have step : a2iLoop (acc % 2 ^ 32 : Nat) (ch :: digits) =
        a2iLoop (int4Value ((acc * 10 + digitVal ch : Nat) : Int)) digits := by
      rw [a2iLoop, if_pos (Int.natCast_nonneg _), int4Value_step]
    rw [step, positive_cons small]
    by_cases next : (acc * 10 + digitVal ch) % 2 ^ 32 < 2 ^ 31
    · rw [int4Value_small next]
      exact ih next
    · refine .inr ⟨fun positive => next (positive 0 (Nat.zero_le _)), ?_⟩
      have negative := int4Value_large next
      cases digits with
      | nil => exact negative
      | cons second digits =>
        rw [a2iLoop, if_neg (Int.not_le.mpr negative)]
        exact negative

theorem a2i_spec {code : List UInt8} (some : code ≠ []) :
    (Positive 0 code ∧ A2I code = (decimal code % 2 ^ 32 : Nat)) ∨ (¬ Positive 0 code ∧ A2I code < 0) := by
  have loop := a2iLoop_spec code (by decide : 0 % 2 ^ 32 < 2 ^ 31)
  rw [A2I, if_neg some]
  exact loop

theorem decimal_take_le (code : List UInt8) (k : Nat) : decimal (code.take k) ≤ decimal code := by
  have value : decimal code = evalFrom 10 (decimal (code.take k)) ((code.drop k).map digitVal) := by
    unfold decimal
    rw [← evalFrom_append, ← List.map_append, List.take_append_drop]
  rw [value, evalFrom_acc]
  have larger := Nat.le_mul_of_pos_right (decimal (code.take k))
    (Nat.pow_pos (n := ((code.drop k).map digitVal).length) (by decide : 0 < 10))
  exact Nat.le_add_right_of_le larger

/-- What the number of a code decides. -/
theorem scannedCode_eq {code : List UInt8} (some : code ≠ []) :
    scannedCode code = if Positive 0 code ∧ decimal code % 2 ^ 32 < 256 then
      [UInt8.ofNat (decimal code % 2 ^ 32)] else [] := by
  unfold scannedCode codeByte
  rcases a2i_spec some with ⟨positive, value⟩ | ⟨negative, value⟩
  · rw [value, if_neg (Int.not_lt.mpr (Int.natCast_nonneg _))]
    by_cases small : decimal code % 2 ^ 32 < 256
    · rw [if_pos (by omega), if_pos ⟨positive, small⟩]
      rfl
    · rw [if_neg (by omega), if_neg fun both => small both.2]
      rfl
  · rw [if_pos value, if_neg (by decide : ¬ MAXPOSINT4 < 256), if_neg fun both => negative both.1]
    rfl

/-- A code passes for the character that it lists, except when its number slips. Then it lists none. -/
theorem scannedCode_cases (code : List UInt8) :
    (¬ Slips code → scannedCode code = listedCode code) ∧
      (Slips code → (listedCode code).length < (scannedCode code).length) := by
  by_cases empty : code = []
  · subst empty
    constructor
    · intro _
      rfl
    · intro slips
      exact absurd slips.1 (by decide)
  rw [scannedCode_eq empty, listedCode, if_neg empty, op_fnzchar]
  constructor
  · intro noSlip
    by_cases small : decimal code < 256
    · have positive : Positive 0 code := by
        intro k _
        have least := decimal_take_le code k
        change decimal (code.take k) % 2 ^ 32 < 2 ^ 31
        omega
      have same : decimal code % 2 ^ 32 = decimal code := Nat.mod_eq_of_lt (by omega)
      rw [same, if_pos ⟨positive, small⟩, if_pos (by omega), Int.toNat_natCast]
    · rw [if_neg, if_neg (by omega)]
      rintro ⟨positive, low⟩
      exact noSlip ⟨by omega, low, positive⟩
  · rintro ⟨large, low, positive⟩
    rw [if_neg (by omega), if_pos ⟨positive, low⟩]
    exact Nat.zero_lt_one

/-- Lists that are joined are equal when their parts are, and longer when one part is longer and the
others are equal. -/
theorem flatMap_cases {α β : Type} {f g : α → List β} {Bad : α → Prop}
    (parts : ∀ x, (¬ Bad x → f x = g x) ∧ (Bad x → (g x).length < (f x).length)) (l : List α) :
    ((¬ ∃ x ∈ l, Bad x) → l.flatMap f = l.flatMap g) ∧
      ((∃ x ∈ l, Bad x) → (l.flatMap g).length < (l.flatMap f).length) := by
  induction l with
  | nil =>
    constructor
    · intro _
      rfl
    · rintro ⟨x, member, _⟩
      exact absurd member List.not_mem_nil
  | cons x l ih =>
    rw [List.flatMap_cons, List.flatMap_cons]
    by_cases bad : Bad x
    · have behind : (l.flatMap g).length ≤ (l.flatMap f).length := by
        by_cases later : ∃ y ∈ l, Bad y
        · exact Nat.le_of_lt (ih.2 later)
        · exact Nat.le_of_eq (congrArg List.length (ih.1 later)).symm
      constructor
      · intro none
        exact absurd ⟨x, List.mem_cons_self, bad⟩ none
      · intro _
        rw [List.length_append, List.length_append]
        exact Nat.add_lt_add_of_lt_of_le ((parts x).2 bad) behind
    · rw [(parts x).1 bad]
      constructor
      · intro none
        rw [ih.1 fun ⟨y, member, found⟩ => none ⟨y, List.mem_cons_of_mem x member, found⟩]
      · rintro ⟨y, member, found⟩
        rw [List.length_append, List.length_append]
        apply Nat.add_lt_add_left
        rcases List.mem_cons.mp member with rfl | later
        · exact absurd found bad
        · exact ih.2 ⟨y, later, found⟩

namespace SubscriptText

/-- What is copied for a subscript. -/
def scanned : SubscriptText → List UInt8
  | numeral w => w
  | joined first more => (first :: more).flatMap Segment.scanned

/-- What is copied for a subscript is what it denotes, unless a code slips. -/
theorem scanned_eq_iff (sub : SubscriptText) :
    sub.scanned = sub.value ↔ ∀ code ∈ sub.codes, ¬ Slips code := by
  cases sub with
  | numeral w => exact iff_of_true rfl fun _ member => absurd member List.not_mem_nil
  | joined first more =>
    have segments : ∀ segment : Segment,
        (¬ (∃ code ∈ segment.codes, Slips code) → segment.scanned = segment.value) ∧
          ((∃ code ∈ segment.codes, Slips code) → segment.value.length < segment.scanned.length) := by
      intro segment
      cases segment with
      | quoted content =>
        constructor
        · intro _
          rfl
        · rintro ⟨code, member, _⟩
          exact absurd member List.not_mem_nil
      | call name first more => exact flatMap_cases scannedCode_cases (first :: more)
    obtain ⟨same, longer⟩ := flatMap_cases segments (first :: more)
    constructor
    · intro equal code member slips
      obtain ⟨segment, among, listed⟩ := List.mem_flatMap.mp member
      have less := longer ⟨segment, among, code, listed, slips⟩
      exact absurd (congrArg List.length equal) (Nat.ne_of_gt less)
    · intro none
      apply same
      rintro ⟨segment, among, code, listed, slips⟩
      exact none code (List.mem_flatMap.mpr ⟨segment, among, listed⟩) slips

/-- A subscript without any character. -/
def Blank : SubscriptText → Prop
  | numeral _ => False
  | joined first more => ∀ segment ∈ first :: more, match segment with
    | .quoted content => content = []
    | .call _ first more => ∀ code ∈ first :: more, code = [] ∨ 255 < decimal code

theorem listedCode_eq_nil_iff {code : List UInt8} :
    listedCode code = [] ↔ code = [] ∨ 255 < decimal code := by
  unfold listedCode op_fnzchar
  by_cases empty : code = []
  · rw [if_pos empty]
    exact iff_of_true rfl (.inl empty)
  · rw [if_neg empty]
    by_cases small : decimal code < 256
    · rw [if_pos (by omega)]
      apply iff_of_false (List.cons_ne_nil _ _)
      rintro (none | large)
      · exact empty none
      · omega
    · rw [if_neg (by omega)]
      exact iff_of_true rfl (.inr (by omega))

theorem value_eq_nil_iff {sub : SubscriptText} (passes : sub.Passes) : sub.value = [] ↔ sub.Blank := by
  cases sub with
  | numeral w =>
    refine iff_of_false ?_ id
    rcases passes with rfl | ⟨_, _, _, rfl, _, some⟩
    · exact List.cons_ne_nil _ _
    · exact some
  | joined first more =>
    unfold value Blank
    rw [List.flatMap_eq_nil_iff]
    apply forall_congr'
    intro segment
    apply imp_congr_right
    intro _
    cases segment with
    | quoted content => exact Iff.rfl
    | call name first more =>
      unfold Segment.value
      rw [List.flatMap_eq_nil_iff]
      apply forall_congr'
      intro code
      exact imp_congr_right fun _ => listedCode_eq_nil_iff

end SubscriptText

/-! ## Components in the name -/

theorem copyText_plain {stop : Nat} {reserved : Int} {w : List UInt8} (plain : ∀ ch ∈ w, ch ≠ Ascii.quote)
    (rest : List UInt8) {isrc : Nat} {dst : List UInt8} (room : Room stop reserved isrc dst)
    (ends : isrc + w.length = stop) {turns : Nat} (enough : w.length < turns) :
    copyText stop reserved turns (w ++ rest) isrc dst = some (dst ++ w) := by
  induction w generalizing isrc dst turns with
  | nil =>
    have ended : ¬ isrc < stop := Nat.not_lt.mpr (Nat.le_of_eq ends.symm)
    rw [List.nil_append, List.append_nil]
    cases turns with
    | zero => exact absurd enough (Nat.not_lt_zero _)
    | succ turns =>
      cases rest with
      | nil => exact if_neg ended
      | cons ch rest => exact if_neg ended
  | cons ch w ih =>
    obtain ⟨here, plain⟩ := List.forall_mem_cons.mp plain
    rw [List.length_cons] at ends enough
    cases turns with
    | zero => exact absurd enough (Nat.not_lt_zero _)
    | succ turns =>
      rw [List.cons_append, copyText, if_pos (by omega), room.write (by omega), Option.bind_some,
        if_neg here, ih plain (room.snoc ch) (by omega) (Nat.lt_of_succ_lt_succ enough),
        List.append_assoc]
      rfl

/-- Behind a subscript stands a comma or the closing parenthesis. -/
theorem separated_at (subs : List (List UInt8)) {i : Nat} {sub : List UInt8}
    (found : subs[i]? = some sub) (tail : List UInt8) :
    ∃ sep rest, (sep = Ascii.comma ∨ sep = Ascii.close_paren) ∧
      separated subs ++ Ascii.close_paren :: tail =
        (subs.take i).flatMap (· ++ [Ascii.comma]) ++ (sub ++ sep :: rest) := by
  induction subs generalizing i with
  | nil => simp at found
  | cons w subs ih =>
    cases i with
    | zero =>
      obtain rfl : w = sub := by simpa using found
      by_cases none : subs = []
      · subst none
        exact ⟨Ascii.close_paren, tail, .inr rfl, by simp [separated]⟩
      · refine ⟨Ascii.comma, separated subs ++ Ascii.close_paren :: tail, .inl rfl, ?_⟩
        rw [separated_cons none]
        simp
    | succ i =>
      rw [List.getElem?_cons_succ] at found
      have some : subs ≠ [] := by
        rintro rfl
        simp at found
      obtain ⟨sep, rest, separates, split⟩ := ih found
      refine ⟨sep, rest, separates, ?_⟩
      rw [separated_cons some, List.append_assoc, List.cons_append, split]
      simp

/-- In front of a subscript stands a parenthesis or a comma. -/
theorem before_ends (r : Reference) (i : Nat) :
    ∃ pre ch, r.before i = pre ++ [ch] ∧ ch ≠ Ascii.quote := by
  rcases List.eq_nil_or_concat (r.subs.take i) with none | ⟨front, last, some⟩
  · refine ⟨r.front.text ++ r.name, Ascii.open_paren, ?_, by decide⟩
    simp [Reference.before, none]
  · refine ⟨r.front.text ++ (r.name ++ Ascii.open_paren ::
      (front.flatMap (· ++ [Ascii.comma]) ++ last)), Ascii.comma, ?_, by decide⟩
    simp [Reference.before, some]

namespace QName

/-- Where a subscript stands in the text. -/
theorem Reads.place {q : QName} {src : List UInt8} (reads : q.Reads src) {i : Nat} {sub : SubscriptText}
    (found : q.subs[i]? = some sub) :
    ∃ sep tail, sep ≠ Ascii.quote ∧
      src = q.reference.before i ++ (sub.text ++ sep :: tail) := by
  obtain ⟨rest, rfl, _⟩ := reads.whole
  have text : q.reference.subs[i]? = some sub.text := by
    show (q.subs.map SubscriptText.text)[i]? = _
    rw [List.getElem?_map, found]
    rfl
  obtain ⟨sep, tail, separates, split⟩ := separated_at q.reference.subs text rest
  have some : q.reference.subs ≠ [] := by
    intro none
    rw [none] at text
    simp at text
  refine ⟨sep, tail, ?_, ?_⟩
  · rcases separates with rfl | rfl <;> decide
  · rw [Reference.text, subsText, if_neg some]
    simp only [Reference.before, List.append_assoc, List.cons_append, split, List.nil_append]

/-- The function on a component that has been found. -/
theorem op_fnqsubscript_found {src : List UInt8} {i subs_count isrc stop : Nat}
    (name : is_canonic_name false src ((i : Int) + 1) = some (subs_count, isrc, stop))
    (listed : i < subs_count) {ch : UInt8} (letter : src[isrc]? = some ch) (first : 0 < isrc)
    (behind : src.getD (isrc - 1) 0 ≠ Ascii.quote) :
    op_fnqsubscript src ((i : Int) + 1) = .ok
      (if ch ≠ Ascii.quote ∧ ch ≠ Ascii.dollar then
        copyText stop ((stop : Int) - isrc + 1) (src.length + 1) (src.drop isrc) isrc []
      else scan stop ((stop : Int) - isrc + 1) (src.length + 1) ⟨src.drop isrc, isrc, false, []⟩) := by
  have plain : plainComponent src isrc = some (decide (ch ≠ Ascii.quote ∧ ch ≠ Ascii.dollar)) := by
    unfold plainComponent
    rw [if_neg, letter]
    · rfl
    · rintro (zero | quote)
      · exact Nat.ne_of_gt first zero
      · exact behind quote
  unfold op_fnqsubscript
  rw [if_neg (by omega), name]
  dsimp only
  rw [if_pos (by omega), if_neg (fun both => by omega), Option.bind_some, plain, Option.bind_some]
  by_cases easy : ch ≠ Ascii.quote ∧ ch ≠ Ascii.dollar
  · rw [decide_eq_true easy, if_pos rfl, if_pos easy]
  · rw [decide_eq_false easy, if_neg Bool.false_ne_true, if_neg easy]

theorem extraStop_eq_nil {front : NameFront} (plain : ¬ Misplaces front) : extraStop front = [] := by
  unfold extraStop
  split
  · exact if_neg plain
  · rfl

theorem text_ne_nil {sub : SubscriptText} (passes : sub.Passes) : sub.text ≠ [] := by
  cases sub with
  | numeral w =>
    rcases passes with rfl | ⟨_, _, _, rfl, _, some⟩
    · exact List.cons_ne_nil _ _
    · exact some
  | joined first more =>
    obtain ⟨ends, expr⟩ := passesExpr_of_segments passes
    obtain ⟨body, opened⟩ := expr.opened
    show joinedText first more ≠ []
    rw [opened]
    exact List.cons_ne_nil _ _

/-- A letter at the start of a component, with what stands around it. -/
theorem letter_at {pre : List UInt8} {last ch : UInt8} (rest : List UInt8) :
    0 < (pre ++ [last]).length ∧ (pre ++ [last] ++ ch :: rest)[(pre ++ [last]).length]? = some ch ∧
      (pre ++ [last] ++ ch :: rest).getD ((pre ++ [last]).length - 1) 0 = last := by
  refine ⟨by simp, by simp, ?_⟩
  rw [List.getD_eq_getElem?_getD, List.length_append, List.length_singleton, Nat.add_sub_cancel,
    List.append_assoc, List.getElem?_append_right (Nat.le_refl _), Nat.sub_self]
  rfl

/-- A subscript whose ends have been found is scanned. -/
theorem Reads.scanned {q : QName} {src : List UInt8} (reads : q.Reads src)
    (plain : ¬ Misplaces q.front) {i : Nat} {sub : SubscriptText} (found : q.subs[i]? = some sub) :
    op_fnqsubscript src ((i : Int) + 1) = .ok (some sub.scanned) := by
  have parsed := reads.parse
  rw [extraStop_eq_nil plain] at parsed
  have text : q.reference.subs[i]? = some sub.text := by
    show (q.subs.map SubscriptText.text)[i]? = _
    rw [List.getElem?_map, found]
    rfl
  have name := is_canonic_name_subscript parsed text
  obtain ⟨listed, _⟩ := List.getElem?_eq_some_iff.mp text
  obtain ⟨sep, tail, notQuote, split⟩ := reads.place found
  obtain ⟨pre, last, before, lastPlain⟩ := before_ends q.reference i
  have passes := reads.subs sub (List.mem_of_getElem? found)
  have room : Room (q.reference.before i ++ sub.text).length
      (((q.reference.before i ++ sub.text).length : Int) - (q.reference.before i).length + 1)
      (q.reference.before i).length [] := by
    unfold Room
    rw [List.length_nil]
    omega
  have ends : (q.reference.before i).length + sub.text.length =
    (q.reference.before i ++ sub.text).length := List.length_append.symm
  have left : src.drop (q.reference.before i).length = sub.text ++ sep :: tail := by
    rw [split, List.drop_left]
  have enough : sub.text.length < src.length + 1 := by
    rw [split]
    simp only [List.length_append]
    omega
  have turns : (src.drop (q.reference.before i).length).length < src.length + 1 := by
    rw [List.length_drop]
    omega
  cases opens : sub.text with
  | nil => exact absurd opens (text_ne_nil passes)
  | cons ch more =>
    have around := @letter_at pre last ch (more ++ sep :: tail)
    rw [← before, ← List.cons_append, ← opens, ← split] at around
    obtain ⟨first, letter, behind⟩ := around
    rw [op_fnqsubscript_found name listed letter first (by rw [behind]; exact lastPlain), left]
    rw [left] at turns
    cases sub with
    | numeral w =>
      have chars := PassesNumber.chars passes
      have easy : ch ≠ Ascii.quote ∧ ch ≠ Ascii.dollar := by
        have kind := chars ch (by rw [show w = ch :: more from opens]; exact List.mem_cons_self)
        constructor
        · rintro rfl
          exact absurd kind (by decide)
        · rintro rfl
          exact absurd kind (by decide)
      have unquoted : ∀ c ∈ w, c ≠ Ascii.quote := by
        intro c member
        rintro rfl
        exact absurd (chars _ member) (by decide)
      rw [if_pos easy]
      exact congrArg Except.ok (copyText_plain unquoted (sep :: tail) room ends enough)
    | joined start rest =>
      have hard : ¬ (ch ≠ Ascii.quote ∧ ch ≠ Ascii.dollar) := by
        obtain ⟨ends, expr⟩ := passesExpr_of_segments passes
        obtain ⟨body, opened⟩ := expr.opened
        have same : ch = opening start.isQuoted := (List.cons.inj (opens.symm.trans opened)).1
        rw [same]
        cases start.isQuoted <;> decide
      rw [if_neg hard]
      exact congrArg Except.ok (yields_joined passes notQuote tail room ends _ turns)

/-- A stop too many: the stop that is taken for a subscript stands in front of it. -/
theorem is_canonic_name_misplaced {q : QName} {src : List UInt8} (reads : q.Reads src)
    (misplaces : Misplaces q.front) {i : Nat} (listed : i < q.reference.subs.length) :
    ∃ stop ≤ (q.reference.before i).length, is_canonic_name false src ((i : Int) + 1) =
      some (q.reference.subs.length, (q.reference.before i).length, stop) := by
  obtain ⟨place, extra⟩ : ∃ place, extraStop q.front = [place] := by
    unfold Misplaces at misplaces
    unfold extraStop
    split at misplaces
    · rename_i front bracketed first second
      exact ⟨_, if_pos misplaces⟩
    · exact absurd misplaces id
  have parsed := reads.parse
  rw [extra] at parsed
  refine ⟨_, ?_, is_canonic_name_at parsed listed⟩
  rw [List.getD_eq_getElem?_getD]
  simp only [Reference.noted]
  rw [List.append_assoc, List.getElem?_append_right (Nat.le_add_right _ _), Nat.add_sub_cancel_left,
    List.singleton_append, List.getElem?_cons_succ]
  cases i with
  | zero =>
    rw [List.getElem?_cons_zero, Option.getD_some]
    simp only [Reference.before, List.length_append, List.length_cons]
    omega
  | succ j =>
    have before := List.getElem?_eq_getElem (Nat.lt_of_succ_lt listed)
    have bound := bounds_getElem? (q.reference.front.text.length + q.reference.name.length + 1)
      q.reference.subs before
    rw [List.getElem?_cons_succ, List.getElem?_map, bound]
    simp only [Option.map_some, Option.getD_some, Reference.before, List.length_append,
      List.length_cons, List.take_add_one, before, List.flatMap_append, Option.toList_some,
      List.flatMap_cons, List.flatMap_nil, List.length_nil]
    omega

theorem Reads.misplaced {q : QName} {src : List UInt8} (reads : q.Reads src)
    (misplaces : Misplaces q.front) {i : Nat} {sub : SubscriptText} (found : q.subs[i]? = some sub) :
    op_fnqsubscript src ((i : Int) + 1) = .ok (some []) := by
  have text : q.reference.subs[i]? = some sub.text := by
    show (q.subs.map SubscriptText.text)[i]? = _
    rw [List.getElem?_map, found]
    rfl
  obtain ⟨listed, _⟩ := List.getElem?_eq_some_iff.mp text
  obtain ⟨stop, early, name⟩ := is_canonic_name_misplaced reads misplaces listed
  obtain ⟨sep, tail, _, split⟩ := reads.place found
  obtain ⟨pre, last, before, lastPlain⟩ := before_ends q.reference i
  have passes := reads.subs sub (List.mem_of_getElem? found)
  cases opens : sub.text with
  | nil => exact absurd opens (text_ne_nil passes)
  | cons ch more =>
    have around := @letter_at pre last ch (more ++ sep :: tail)
    rw [← before, ← List.cons_append, ← opens, ← split] at around
    obtain ⟨first, letter, behind⟩ := around
    rw [op_fnqsubscript_found name listed letter first (by rw [behind]; exact lastPlain)]
    have left : src.drop (q.reference.before i).length = ch :: (more ++ sep :: tail) := by
      rw [split, List.drop_left, opens, List.cons_append]
    have ended : ¬ (q.reference.before i).length < stop := Nat.not_lt.mpr early
    by_cases easy : ch ≠ Ascii.quote ∧ ch ≠ Ascii.dollar
    · rw [if_pos easy, left, copyText, if_neg ended]
    · rw [if_neg easy, scan, if_neg ended]

/-- The string that a subscript of a name denotes, nothing beyond the last one. -/
def value (q : QName) (seq : Nat) : List UInt8 :=
  match q.subs[seq - 1]? with
  | some sub => sub.value
  | none => []

/-- The subscript has no character where the ends are misplaced, and no code that slips elsewhere. -/
def Spared (q : QName) (seq : Nat) : Prop :=
  ∀ sub, q.subs[seq - 1]? = some sub →
    if Misplaces q.front then sub.Blank else ∀ code ∈ sub.codes, ¬ Slips code

end QName

end Ydb.QSubscript
