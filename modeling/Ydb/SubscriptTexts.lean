import Ydb.NameRecognition

/-!
# Subscripts by their parts

A subscript of a recognized name is the text of a number, or quoted segments and calls of `$CHAR` and
`$ZCHAR` joined by underscores. Taken by its parts it has a text, and a string that it denotes. What
is recognized in M mode are exactly the names whose subscripts have such parts.
-/

namespace Ydb.QSubscript

open Lib NameParse

/-! ## Parts -/

/-- The number that digits denote. -/
def decimal (digits : List UInt8) : Nat := evalFrom 10 0 (digits.map digitVal)

/-- The character that a code lists, if there is one. A code that is missing lists none. -/
def listedCode (code : List UInt8) : List UInt8 :=
  if code = [] then [] else op_fnzchar (decimal code)

/-- A text with its quotes doubled. -/
def doubled (content : List UInt8) : List UInt8 :=
  content.flatMap fun ch => if ch = Ascii.quote then [Ascii.quote, Ascii.quote] else [ch]

/-- What stands between two underscores. -/
inductive Segment where
  | quoted (content : List UInt8)
  | call (name first : List UInt8) (more : List (List UInt8))
deriving DecidableEq

/-- The codes behind the first one, each with its comma. -/
def moreText (more : List (List UInt8)) : List UInt8 := more.flatMap (Ascii.comma :: ·)

namespace Segment

/-- The text of a segment. -/
def text : Segment → List UInt8
  | quoted content => Ascii.quote :: (doubled content ++ [Ascii.quote])
  | call name first more => Ascii.dollar :: callText name first (moreText more)

/-- The codes in a segment. -/
def codes : Segment → List (List UInt8)
  | quoted _ => []
  | call _ first more => first :: more

/-- The string that a segment denotes. -/
def value : Segment → List UInt8
  | quoted content => content
  | call _ first more => (first :: more).flatMap listedCode

/-- Whether a segment is quoted. -/
def isQuoted : Segment → Bool
  | quoted _ => true
  | call _ _ _ => false

/-- Whether the parser takes a segment. -/
def Passes : Segment → Prop
  | quoted _ => True
  | call name first more => (CharName name ∨ Misspelt name) ∧ AllDigits first ∧
      ∀ code ∈ more, code ≠ [] ∧ AllDigits code

end Segment

/-- Segments joined by underscores. -/
def joinedText : Segment → List Segment → List UInt8
  | first, [] => first.text
  | first, next :: more => first.text ++ Ascii.underscore :: joinedText next more

/-- A subscript by its parts. -/
inductive SubscriptText where
  | numeral (w : List UInt8)
  | joined (first : Segment) (more : List Segment)

namespace SubscriptText

/-- The text of a subscript. -/
def text : SubscriptText → List UInt8
  | numeral w => w
  | joined first more => joinedText first more

/-- The string that a subscript denotes: a number its own text, and segments what they denote one
after the other. -/
def value : SubscriptText → List UInt8
  | numeral w => w
  | joined first more => (first :: more).flatMap Segment.value

/-- The codes in a subscript. -/
def codes : SubscriptText → List (List UInt8)
  | numeral _ => []
  | joined first more => (first :: more).flatMap Segment.codes

/-- Two quoted segments do not follow each other. -/
def Passes : SubscriptText → Prop
  | numeral w => PassesNumber w
  | joined first more => (∀ segment ∈ first :: more, segment.Passes) ∧
      (first :: more).IsChain fun a b => Alternates a.isQuoted b.isQuoted

end SubscriptText

/-! ## Every text has parts -/

theorem doubled_quote (content : List UInt8) :
    doubled (Ascii.quote :: content) = Ascii.quote :: Ascii.quote :: doubled content := rfl

theorem doubled_plain {ch : UInt8} (plain : ch ≠ Ascii.quote) (content : List UInt8) :
    doubled (ch :: content) = ch :: doubled content := by
  rw [doubled, List.flatMap_cons, if_neg plain]
  rfl

theorem nameQuoted_iff {w : List UInt8} :
    NameQuoted false w ↔ ∃ content, w = doubled content ++ [Ascii.quote] := by
  constructor
  · intro body
    induction body with
    | close => exact ⟨[], rfl⟩
    | doubled _ ih =>
      obtain ⟨content, rfl⟩ := ih
      exact ⟨Ascii.quote :: content, rfl⟩
    | @char ch more w plain width _ ih =>
      obtain ⟨content, rfl⟩ := ih
      have single : more = [] := List.eq_nil_of_length_eq_zero width
      refine ⟨ch :: content, ?_⟩
      rw [single, doubled_plain plain]
      rfl
  · rintro ⟨content, rfl⟩
    induction content with
    | nil => exact .close
    | cons ch content ih =>
      by_cases quote : ch = Ascii.quote
      · rw [quote, doubled_quote]
        exact .doubled ih
      · rw [doubled_plain quote]
        have width : ([] : List UInt8).length = followers false ch := rfl
        exact @NameQuoted.char false ch [] _ quote width ih

theorem moreArgs_iff {w : List UInt8} :
    MoreArgs w ↔ ∃ more, (∀ code ∈ more, code ≠ [] ∧ AllDigits code) ∧ w = moreText more := by
  constructor
  · intro args
    induction args with
    | nil => exact ⟨[], by simp, rfl⟩
    | @cons digits w some all _ ih =>
      obtain ⟨more, good, rfl⟩ := ih
      exact ⟨digits :: more, List.forall_mem_cons.mpr ⟨⟨some, all⟩, good⟩, rfl⟩
  · rintro ⟨more, good, rfl⟩
    induction more with
    | nil => exact .nil
    | cons digits more ih =>
      obtain ⟨⟨some, all⟩, good⟩ := List.forall_mem_cons.mp good
      exact .cons some all (ih good)

theorem passesCall_iff {c : List UInt8} :
    PassesCall c ↔ ∃ name first more, (Segment.call name first more).Passes ∧
      c = callText name first (moreText more) := by
  constructor
  · rintro ⟨name, first, more, rfl, named, all, args⟩
    obtain ⟨codes, good, rfl⟩ := moreArgs_iff.mp args
    exact ⟨name, first, codes, ⟨named, all, good⟩, rfl⟩
  · rintro ⟨name, first, more, ⟨named, all, good⟩, rfl⟩
    exact ⟨name, first, moreText more, rfl, named, all, moreArgs_iff.mpr ⟨more, good, rfl⟩⟩

/-- The expressions that pass. -/
abbrev PassesExpr : Bool → Bool → List UInt8 → Prop := StringExpr false Alternates PassesCall

theorem exists_segments {starts ends : Bool} {w : List UInt8} (expr : PassesExpr starts ends w) :
    ∃ first more, (SubscriptText.joined first more).Passes ∧ w = joinedText first more ∧
      first.isQuoted = starts := by
  induction expr with
  | quoted body =>
    obtain ⟨content, rfl⟩ := nameQuoted_iff.mp body
    refine ⟨.quoted content, [], ⟨?_, .singleton _⟩, rfl, rfl⟩
    intro segment member
    rw [List.mem_singleton.mp member]
    trivial
  | call call =>
    obtain ⟨name, first, more, good, rfl⟩ := passesCall_iff.mp call
    refine ⟨.call name first more, [], ⟨?_, .singleton _⟩, rfl, rfl⟩
    intro segment member
    rw [List.mem_singleton.mp member]
    exact good
  | quotedJoin body joins _ ih =>
    obtain ⟨content, rfl⟩ := nameQuoted_iff.mp body
    obtain ⟨next, more, ⟨good, chain⟩, rfl, starts⟩ := ih
    refine ⟨.quoted content, next :: more, ⟨?_, ?_⟩, ?_, rfl⟩
    · exact List.forall_mem_cons.mpr ⟨trivial, good⟩
    · apply List.IsChain.cons_cons _ chain
      rw [starts]
      exact joins
    · simp [joinedText, Segment.text]
  | callJoin call joins _ ih =>
    obtain ⟨name, first, codes, passes, rfl⟩ := passesCall_iff.mp call
    obtain ⟨next, more, ⟨good, chain⟩, rfl, starts⟩ := ih
    refine ⟨.call name first codes, next :: more, ⟨?_, ?_⟩, ?_, rfl⟩
    · exact List.forall_mem_cons.mpr ⟨passes, good⟩
    · apply List.IsChain.cons_cons _ chain
      rw [starts]
      exact joins
    · simp [joinedText, Segment.text]

theorem passesExpr_of_segments {first : Segment} {more : List Segment}
    (passes : (SubscriptText.joined first more).Passes) :
    ∃ ends, PassesExpr first.isQuoted ends (joinedText first more) := by
  induction more generalizing first with
  | nil =>
    cases first with
    | quoted content => exact ⟨false, .quoted (nameQuoted_iff.mpr ⟨content, rfl⟩)⟩
    | call name first more =>
      have call := passes.1 _ List.mem_cons_self
      exact ⟨true, .call (passesCall_iff.mpr ⟨name, first, more, call, rfl⟩)⟩
  | cons next more ih =>
    obtain ⟨good, chain⟩ := passes
    obtain ⟨here, good⟩ := List.forall_mem_cons.mp good
    obtain ⟨alternates, chain⟩ := List.isChain_cons_cons.mp chain
    obtain ⟨ends, expr⟩ := ih ⟨good, chain⟩
    refine ⟨ends, ?_⟩
    cases first with
    | quoted content =>
      have whole := StringExpr.quotedJoin (nameQuoted_iff.mpr ⟨content, rfl⟩) alternates expr
      have text : joinedText (.quoted content) (next :: more) =
          Ascii.quote :: (doubled content ++ [Ascii.quote] ++ Ascii.underscore :: joinedText next more) :=
        rfl
      rw [text]
      exact whole
    | call name first codes =>
      have call : PassesCall (callText name first (moreText codes)) :=
        passesCall_iff.mpr ⟨name, first, codes, here, rfl⟩
      exact StringExpr.callJoin call alternates expr

/-- What passes for a component is the text of a subscript that passes. -/
theorem passing_iff {w : List UInt8} :
    Passing false w ↔ ∃ sub : SubscriptText, sub.Passes ∧ w = sub.text := by
  constructor
  · rintro ⟨always, component⟩
    cases component with
    | zero => exact ⟨.numeral [Ascii.zero], .inl rfl, rfl⟩
    | number number _ => exact ⟨.numeral w, number, rfl⟩
    | expression expr =>
      obtain ⟨first, more, passes, rfl, _⟩ := exists_segments expr
      exact ⟨.joined first more, passes, rfl⟩
  · rintro ⟨sub, passes, rfl⟩
    cases sub with
    | numeral w =>
      by_cases zero : w = [Ascii.zero]
      · subst zero
        exact ⟨true, .zero⟩
      · exact ⟨false, .number passes zero⟩
    | joined first more =>
      obtain ⟨ends, expr⟩ := passesExpr_of_segments passes
      exact ⟨ends, .expression expr⟩

/-! ## Names by their parts -/

theorem PassesNumber.chars {w : List UInt8} (number : PassesNumber w) :
    ∀ ch ∈ w, ch = Ascii.minus ∨ ch = Ascii.dot ∨ isDigit ch = true := by
  rcases number with rfl | ⟨sign, whole, fraction, rfl, ⟨signed, digits, _, ends⟩, _⟩
  · intro ch member
    rw [List.mem_singleton.mp member]
    exact .inr (.inr rfl)
  · intro ch member
    rcases List.mem_append.mp member with inSign | member
    · rcases signed with rfl | rfl
      · exact absurd inSign List.not_mem_nil
      · exact .inl (List.mem_singleton.mp inSign)
    rcases List.mem_append.mp member with inWhole | inFraction
    · exact .inr (.inr (digits ch inWhole))
    · rcases ends with rfl | ⟨behind, rfl, all, _⟩
      · exact absurd inFraction List.not_mem_nil
      · rcases List.mem_cons.mp inFraction with dot | digit
        · exact .inr (.inl dot)
        · exact .inr (.inr (all ch digit))

theorem PassesExpr.getLast? {starts ends : Bool} {w : List UInt8} (expr : PassesExpr starts ends w) :
    w.getLast? = some (if ends then Ascii.close_paren else Ascii.quote) := by
  induction expr with
  | quoted body =>
    obtain ⟨content, rfl⟩ := nameQuoted_iff.mp body
    rw [← List.cons_append]
    exact List.getLast?_concat
  | call call =>
    obtain ⟨name, first, more, rfl, _⟩ := call
    have text : Ascii.dollar :: callText name first more =
        Ascii.dollar :: (name ++ Ascii.open_paren :: (first ++ more)) ++ [Ascii.close_paren] := by
      simp [callText]
    rw [text]
    exact List.getLast?_concat
  | @quotedJoin w rest _ _ _ _ more ih =>
    obtain ⟨body, rfl⟩ := more.opened
    rw [← List.cons_append, List.getLast?_append_cons, List.getLast?_cons_cons]
    exact ih
  | @callJoin c rest _ _ _ _ more ih =>
    obtain ⟨body, rfl⟩ := more.opened
    rw [← List.cons_append, List.getLast?_append_cons, List.getLast?_cons_cons]
    exact ih

/-- The parser notes the end in any case of a zero and of what ends with a parenthesis. -/
theorem always_iff {always : Bool} {w : List UInt8} (component : PassesComponent false always w) :
    always = true ↔ w = [Ascii.zero] ∨ w.getLast? = some Ascii.close_paren := by
  cases component with
  | zero => exact iff_of_true rfl (.inl rfl)
  | number number nonzero =>
    apply iff_of_false Bool.false_ne_true
    rintro (zero | closed)
    · exact nonzero zero
    · have kind := PassesNumber.chars number _ (List.mem_of_getLast? closed)
      exact absurd kind (by decide)
  | expression expr =>
    obtain ⟨body, rfl⟩ := expr.opened
    rw [PassesExpr.getLast? expr]
    constructor
    · rintro rfl
      exact .inr rfl
    · rintro (zero | closed)
      · rename_i starts
        have opens := (List.cons.inj zero).1
        cases starts with
        | true => exact absurd opens (by decide)
        | false => exact absurd opens (by decide)
      · cases always with
        | true => rfl
        | false => exact absurd (Option.some.inj closed) (by decide)

/-- The second component of an environment is a zero or ends with a call. -/
def Misplaces : NameFront → Prop
  | .environment _ [_, second] => second = [Ascii.zero] ∨ second.getLast? = some Ascii.close_paren
  | _ => False

instance : DecidablePred Misplaces
  | .environment _ [_, second] =>
    inferInstanceAs (Decidable (second = [Ascii.zero] ∨ second.getLast? = some Ascii.close_paren))
  | .environment _ [] => isFalse id
  | .environment _ [_] => isFalse id
  | .environment _ (_ :: _ :: _ :: _) => isFalse id
  | .empty => isFalse id
  | .global => isFalse id

/-- The stop that such a component adds to those of the subscripts. -/
def extraStop : NameFront → List Nat
  | .environment bracketed [first, second] =>
    if Misplaces (.environment bracketed [first, second]) then [2 + first.length + 1 + second.length]
    else []
  | _ => []

theorem extra_of_built {front : NameFront} (built : front.Built (Passing false)) :
    Extra false front (extraStop front) := by
  cases front with
  | empty => exact rfl
  | global => exact rfl
  | environment bracketed parts =>
    obtain ⟨few, passing⟩ := built
    rcases few with one | two
    · obtain ⟨first, rfl⟩ := List.length_eq_one_iff.mp one
      exact .one (passing first List.mem_cons_self)
    · obtain ⟨first, second, rfl⟩ := List.length_eq_two.mp two
      obtain ⟨always, component⟩ := passing second (List.mem_cons_of_mem _ List.mem_cons_self)
      have passed := NameParse.EnvPassed.two (passing first List.mem_cons_self) component
      have same : (if always = true then [2 + first.length + 1 + second.length] else []) =
          extraStop (.environment bracketed [first, second]) :=
        if_congr (always_iff component) rfl rfl
      rw [same] at passed
      exact passed

/-- A name with its subscripts by their parts. -/
structure QName where
  front : NameFront
  name : List UInt8
  subs : List SubscriptText

namespace QName

/-- The reference that a name is. -/
def reference (q : QName) : Reference := ⟨q.front, q.name, q.subs.map SubscriptText.text⟩

/-- What a recognized text is by its parts. Behind a list that is one subscript too long and ends with
a zero the text is not looked at. -/
structure Reads (q : QName) (src : List UInt8) : Prop where
  front : q.front.Built (Passing false)
  name : ValidName q.name
  subs : ∀ sub ∈ q.subs, sub.Passes
  whole : ∃ rest, src = q.reference.text ++ rest ∧
    Bounded 0 q.reference.limit (q.subs.map SubscriptText.text) rest

theorem Reads.parse {q : QName} {src : List UInt8} (reads : q.Reads src) :
    parse_gv_name_and_subscripts false src = some (q.reference.noted (extraStop q.front)) := by
  obtain ⟨rest, rfl, bounded⟩ := reads.whole
  apply parse_bounded (extra_of_built reads.front) reads.name _ bounded
  intro w member
  obtain ⟨sub, listed, rfl⟩ := List.mem_map.mp member
  exact passing_iff.mpr ⟨sub, reads.subs sub listed, rfl⟩

theorem exists_subs {texts : List (List UInt8)} (passing : ∀ w ∈ texts, Passing false w) :
    ∃ subs : List SubscriptText, (∀ sub ∈ subs, sub.Passes) ∧ subs.map SubscriptText.text = texts := by
  induction texts with
  | nil => exact ⟨[], by simp, rfl⟩
  | cons w texts ih =>
    obtain ⟨here, behind⟩ := List.forall_mem_cons.mp passing
    obtain ⟨sub, passes, rfl⟩ := passing_iff.mp here
    obtain ⟨subs, all, rfl⟩ := ih behind
    exact ⟨sub :: subs, List.forall_mem_cons.mpr ⟨passes, all⟩, rfl⟩

/-- Every recognized text is one by its parts. -/
theorem exists_reads {src : List UInt8} {parsed : NameComponents}
    (success : parse_gv_name_and_subscripts false src = some parsed) : ∃ q : QName, q.Reads src := by
  rcases parse_cases src with refused | ⟨r, built, whole⟩
  · rw [refused] at success
    exact absurd success (by simp)
  obtain ⟨subs, passes, texts⟩ := exists_subs built.subs
  have same : (⟨r.front, r.name, subs.map SubscriptText.text⟩ : Reference) = r := by
    rw [texts]
  refine ⟨⟨r.front, r.name, subs⟩, built.front, built.name, passes, ?_⟩
  show ∃ rest, src = Reference.text ⟨r.front, r.name, subs.map SubscriptText.text⟩ ++ rest ∧
    Bounded 0 (Reference.limit ⟨r.front, r.name, subs.map SubscriptText.text⟩)
      (subs.map SubscriptText.text) rest
  rw [same, texts]
  rcases whole with ⟨few, rfl⟩ | ⟨many, last, rest, rfl⟩
  · exact ⟨[], (List.append_nil _).symm, .inl ⟨by omega, rfl⟩⟩
  · exact ⟨rest, rfl, .inr ⟨by omega, last⟩⟩

end QName

end Ydb.QSubscript
