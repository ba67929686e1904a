import Ydb.NameReferences

/-!
# Recognizing canonic names

`is_canonic_name` finds a component of a variable's text. The right references are all
found, and each subscript is delimited exactly. A text that is found and is no right
reference has one of the malformed parts, or it starts with a list of subscripts that is
one too long.
-/

namespace Ydb

open Lib NameParse

/-- The subscript count, and where the component `seq` starts and stops. -/
def is_canonic_name (utf8_mode : Bool) (src : List UInt8) (seq : Int) : Option (Nat × Nat × Nat) := do
  let parsed ← parse_gv_name_and_subscripts utf8_mode src
  if 0 > parsed.contains_env + seq ∨ parsed.subscripts < seq then some (parsed.subscripts, 0, 0)
  else
    let index := (parsed.contains_env + seq).toNat
    some (parsed.subscripts, parsed.start.getD index 0, parsed.stop.getD index 0)

/-! ## References -/

/-- What stands before the name. -/
inductive NameFront where
  | empty
  | global
  | environment (bracketed : Bool) (parts : List (List UInt8))

namespace NameFront

/-- What opens an environment. -/
def opens (bracketed : Bool) : UInt8 := if bracketed then Ascii.open_bracket else Ascii.bar

/-- What closes an environment. -/
def closes (bracketed : Bool) : UInt8 := if bracketed then Ascii.close_bracket else Ascii.bar

theorem closes_cases (bracketed : Bool) :
    closes bracketed = Ascii.bar ∨ closes bracketed = Ascii.close_bracket := by
  cases bracketed
  · exact .inl rfl
  · exact .inr rfl

/-- The text in front of the name. -/
def text : NameFront → List UInt8
  | empty => []
  | global => [Ascii.caret]
  | environment bracketed parts =>
    Ascii.caret :: opens bracketed :: (separated parts ++ [closes bracketed])

/-- An environment has one or two components. -/
def Built (Good : List UInt8 → Prop) : NameFront → Prop
  | environment _ parts => (parts.length = 1 ∨ parts.length = 2) ∧ ∀ w ∈ parts, Good w
  | _ => True

/-- A second component of an environment is neither zero nor ends with a call. -/
def Plain (utf8_mode : Bool) : NameFront → Prop
  | environment _ [_, second] => IsComponent utf8_mode false second
  | _ => True

/-- What is noted of an environment. -/
def start : NameFront → List Nat
  | environment _ _ => [2]
  | _ => []

/-- Where the parts in front of the name stop. -/
def stop : NameFront → List Nat
  | environment _ parts => [2 + (parts.headD []).length]
  | _ => []

end NameFront

/-- The text of a variable in its parts. -/
structure Reference where
  front : NameFront
  name : List UInt8
  subs : List (List UInt8)

namespace Reference

/-- The text of a reference. -/
def text (r : Reference) : List UInt8 := r.front.text ++ (r.name ++ subsText r.subs)

/-- A reference of a name and good subscripts. -/
structure Built (Good : List UInt8 → Prop) (r : Reference) : Prop where
  front : r.front.Built Good
  name : ValidName r.name
  subs : ∀ w ∈ r.subs, Good w

/-- The largest number of subscripts. -/
def limit (r : Reference) : Nat :=
  match r.front with
  | .empty => MAX_LVSUBSCRIPTS
  | _ => MAX_GVSUBSCRIPTS

/-- The text in front of a subscript. -/
def before (r : Reference) (i : Nat) : List UInt8 :=
  r.front.text ++ (r.name ++ Ascii.open_paren :: (r.subs.take i).flatMap (· ++ [Ascii.comma]))

/-- What is noted of a reference; `extra` is what a second environment component adds. -/
def noted (r : Reference) (extra : List Nat) : NameComponents :=
  let at_ := r.front.text.length
  let subs := bounds (at_ + r.name.length + 1) r.subs
  ⟨r.subs.length, r.front.start ++ at_ :: subs.map Prod.fst,
    r.front.stop ++ extra ++ (at_ + r.name.length) :: subs.map Prod.snd, r.front.start.length⟩

end Reference

/-- A component that is right. -/
def RightComponent (utf8_mode : Bool) (w : List UInt8) : Prop :=
  ∃ always, IsComponent utf8_mode always w

theorem IsNumber.passes {w : List UInt8} (number : IsNumber w) : PassesNumber w := by
  rcases number with zero | ⟨sign, whole, fraction, rfl, parts, some, _⟩
  · exact .inl zero
  · exact .inr ⟨sign, whole, fraction, rfl, parts,
      fun empty => some (List.append_eq_nil_iff.mp empty).2⟩

theorem IsCall.passes {c : List UInt8} (call : IsCall c) : PassesCall c := by
  obtain ⟨name, first, more, rfl, named, all, args, _⟩ := call
  exact ⟨name, first, more, rfl, .inl named, all, args⟩

theorem StringExpr.passes {utf8_mode starts ends : Bool} {w : List UInt8}
    (expr : StringExpr utf8_mode Alternates IsCall starts ends w) :
    StringExpr utf8_mode Alternates PassesCall starts ends w := by
  induction expr with
  | quoted body => exact .quoted body
  | call call => exact .call call.passes
  | quotedJoin body joins _ ih => exact .quotedJoin body joins ih
  | callJoin call joins _ ih => exact .callJoin call.passes joins ih

theorem Component.passes {utf8_mode always : Bool} {w : List UInt8}
    (component : IsComponent utf8_mode always w) : PassesComponent utf8_mode always w := by
  cases component with
  | zero => exact .zero
  | number number nonzero => exact .number number.passes nonzero
  | expression expr => exact .expression expr.passes

theorem RightComponent.passing {utf8_mode : Bool} {w : List UInt8}
    (right : RightComponent utf8_mode w) : Passing utf8_mode w :=
  right.imp fun _ component => component.passes

/-! ## The parser on references -/

section

variable {utf8_mode : Bool}

theorem parse_eq (src : List UInt8) :
    parse_gv_name_and_subscripts utf8_mode src =
      (at_ ⟨-1, 0, 0, 0, [], []⟩ .before_name src 0 false 0 0).verdict utf8_mode
        (if src.getD 0 0 = Ascii.caret then MAX_GVSUBSCRIPTS else MAX_LVSUBSCRIPTS) := rfl

theorem verdict_caret (subs_max : Nat) (rest : List UInt8) :
    (at_ ⟨-1, 0, 0, 0, [], []⟩ .before_name (Ascii.caret :: rest) 0 false 0 0).verdict utf8_mode
      subs_max =
      (at_ ⟨-1, 0, 0, 0, [], []⟩ .check_for_environment rest 1 false 0 0).verdict utf8_mode
        subs_max := by
  have turn : (at_ ⟨-1, 0, 0, 0, [], []⟩ .before_name (Ascii.caret :: rest) 0 false 0 0).switch =
    some (at_ ⟨-1, 0, 0, 0, [], []⟩ .check_for_environment (Ascii.caret :: rest) 0 false 0 0) := rfl
  exact verdict_turn (List.cons_ne_nil _ _) (minus_one_le subs_max) turn rfl (by decide)

theorem verdict_open (subs_max : Nat) (bracketed : Bool) (rest : List UInt8) :
    (at_ ⟨-1, 0, 0, 0, [], []⟩ .check_for_environment (NameFront.opens bracketed :: rest) 1 false 0
      0).verdict utf8_mode subs_max =
      (at_ (envContext (NameFront.closes bracketed)) .dispatch_for_starting_component rest 2 false 0
        0).verdict utf8_mode subs_max := by
  have turn : (at_ ⟨-1, 0, 0, 0, [], []⟩ .check_for_environment (NameFront.opens bracketed :: rest) 1
      false 0 0).switch = some (at_ (envContext (NameFront.closes bracketed))
        .dispatch_for_starting_component (NameFront.opens bracketed :: rest) 1 false 0 0) := by
    cases bracketed <;> rfl
  exact verdict_turn (List.cons_ne_nil _ _) (minus_one_le subs_max) turn rfl
    (by cases bracketed <;> decide)

/-- The first character of a name is not a caret. -/
theorem NameParse.ValidName.no_caret {name : List UInt8} (valid : ValidName name) (rest : List UInt8) :
    (name ++ rest).getD 0 0 ≠ Ascii.caret := by
  obtain ⟨first, letters, rfl, initial, _⟩ := valid.shape
  exact (initial_plain initial).2

/-- What is noted of a right environment. -/
theorem envPassed_of {parts : List (List UInt8)} (few : parts.length = 1 ∨ parts.length = 2)
    (passing : ∀ w ∈ parts, Passing utf8_mode w) : ∃ extra, EnvPassed utf8_mode parts extra := by
  match parts with
  | [] => simp at few
  | [w] => exact ⟨[], .one (passing w (by simp))⟩
  | [w, v] =>
    obtain ⟨always, second⟩ := passing v (by simp)
    exact ⟨_, .two (passing w (by simp)) second⟩
  | _ :: _ :: _ :: _ => simp at few

theorem envPassed_plain {bracketed : Bool} {parts : List (List UInt8)}
    (few : parts.length = 1 ∨ parts.length = 2) (passing : ∀ w ∈ parts, Passing utf8_mode w)
    (plain : (NameFront.environment bracketed parts).Plain utf8_mode) :
    EnvPassed utf8_mode parts [] := by
  match parts with
  | [] => simp at few
  | [w] => exact .one (passing w (by simp))
  | [w, v] => exact .two (passing w (by simp)) (Component.passes plain)
  | _ :: _ :: _ :: _ => simp at few

/-- The front of a reference adds a stop of its own. -/
def Extra (utf8_mode : Bool) : NameFront → List Nat → Prop
  | .environment _ parts, extra => EnvPassed utf8_mode parts extra
  | _, extra => extra = []

theorem nameNoted_eq (r : Reference) {ctx : NameContext} {extra : List Nat}
    (start : ctx.start = r.front.start) (stop : ctx.stop = r.front.stop ++ extra)
    (contains : ctx.contains_env = r.front.start.length) :
    nameNoted ctx r.front.text.length r.name r.subs = r.noted extra := by
  simp [nameNoted, listed, Opens, named, Reference.noted, start, stop, contains]

/-- A reference whose components pass is taken. A list may be one too long when its last subscript is
a zero; any text may stand behind it then. -/
theorem parse_bounded {r : Reference} {extra : List Nat} (front : Extra utf8_mode r.front extra)
    (name : ValidName r.name) (subs : ∀ w ∈ r.subs, Passing utf8_mode w) {rest : List UInt8}
    (bounded : Bounded 0 r.limit r.subs rest) :
    parse_gv_name_and_subscripts utf8_mode (r.text ++ rest) = some (r.noted extra) := by
  rw [parse_eq]
  obtain ⟨front', name', subs'⟩ := r
  have behind : name' ++ subsText subs' ++ rest = name' ++ (subsText subs' ++ rest) :=
    List.append_assoc _ _ _
  cases front' with
  | empty =>
    obtain rfl : extra = [] := front
    have noCaret : (name' ++ (subsText subs' ++ rest)).getD 0 0 ≠ Ascii.caret := name.no_caret _
    have text : Reference.text ⟨.empty, name', subs'⟩ ++ rest = name' ++ (subsText subs' ++ rest) :=
      behind
    rw [text, if_neg noCaret]
    refine (verdict_name (.inl rfl) (minus_one_le _) name subs bounded 0 false 0 0).trans ?_
    exact congrArg some (nameNoted_eq ⟨.empty, name', subs'⟩ rfl rfl rfl)
  | global =>
    obtain rfl : extra = [] := front
    have text : Reference.text ⟨.global, name', subs'⟩ ++ rest =
        Ascii.caret :: (name' ++ (subsText subs' ++ rest)) := congrArg (Ascii.caret :: ·) behind
    rw [text, List.getD_cons_zero, if_pos rfl, verdict_caret]
    refine (verdict_name (.inr (.inl rfl)) (minus_one_le _) name subs bounded 1 false 0 0).trans ?_
    exact congrArg some (nameNoted_eq ⟨.global, name', subs'⟩ rfl rfl rfl)
  | environment bracketed parts =>
    have text : Reference.text ⟨.environment bracketed parts, name', subs'⟩ ++ rest =
        Ascii.caret :: NameFront.opens bracketed :: (separated parts ++
          NameFront.closes bracketed :: (name' ++ (subsText subs' ++ rest))) := by
      simp [Reference.text, NameFront.text]
    rw [text, List.getD_cons_zero, if_pos rfl, verdict_caret, verdict_open]
    obtain ⟨envpart, instring, point, previous, passed⟩ := verdict_environment
      MAX_GVSUBSCRIPTS (NameFront.closes_cases bracketed) front (name' ++ (subsText subs' ++ rest))
      false 0 0
    refine passed.trans ?_
    have position : 2 + (separated parts).length + 1 =
        (NameFront.environment bracketed parts).text.length := by
      simp [NameFront.text]
      omega
    rw [position]
    refine (verdict_name (.inr (.inr rfl)) (minus_one_le _) name subs bounded _ instring point
      previous).trans ?_
    exact congrArg some (nameNoted_eq ⟨.environment bracketed parts, name', subs'⟩ rfl rfl rfl)

theorem parse_reference {r : Reference} {extra : List Nat} (front : Extra utf8_mode r.front extra)
    (name : ValidName r.name) (subs : ∀ w ∈ r.subs, Passing utf8_mode w)
    (few : r.subs.length ≤ r.limit) :
    parse_gv_name_and_subscripts utf8_mode r.text = some (r.noted extra) := by
  have bounded : Bounded 0 r.limit r.subs [] := .inl ⟨by omega, rfl⟩
  have parsed := parse_bounded front name subs bounded
  rwa [List.append_nil] at parsed

/-- What is taken is a reference whose components pass, or starts with one that has a
subscript too many. -/
def Recognized (utf8_mode : Bool) (src : List UInt8) : Prop :=
  ∃ r : Reference, r.Built (Passing utf8_mode) ∧
    (r.subs.length ≤ r.limit ∧ src = r.text ∨
      r.subs.length = r.limit + 1 ∧ r.subs.getLast? = some [Ascii.zero] ∧ r.text <+: src)

theorem recognized_of (front : NameFront) (built : front.Built (Passing utf8_mode))
    {subs_max : Nat} (limit : ∀ name subs, subs_max = Reference.limit ⟨front, name, subs⟩)
    {text : List UInt8}
    (found : ∃ name subs rest, ValidName name ∧ (∀ w ∈ subs, Passing utf8_mode w) ∧
      text = name ++ (subsText subs ++ rest) ∧
      (subs.length ≤ subs_max ∧ rest = [] ∨
        subs.length = subs_max + 1 ∧ subs.getLast? = some [Ascii.zero])) :
    Recognized utf8_mode (front.text ++ text) := by
  obtain ⟨name, subs, rest, valid, passing, rfl, bound⟩ := found
  refine ⟨⟨front, name, subs⟩, ⟨built, valid, passing⟩, ?_⟩
  rw [← limit name subs]
  rcases bound with ⟨short, rfl⟩ | ⟨long, last⟩
  · exact .inl ⟨short, by simp [Reference.text]⟩
  · exact .inr ⟨long, last, rest, by simp [Reference.text]⟩

/-- A text that is parsed is a reference. -/
theorem parse_cases (src : List UInt8) :
    parse_gv_name_and_subscripts utf8_mode src = none ∨ Recognized utf8_mode src := by
  rw [parse_eq]
  match src with
  | [] => exact .inl rfl
  | ch :: rest =>
    by_cases caret : ch = Ascii.caret
    · subst caret
      show verdict utf8_mode (if Ascii.caret = Ascii.caret then _ else _) _ = none ∨ _
      rw [if_pos rfl, verdict_caret]
      match rest with
      | [] => exact .inl (verdict_end rfl)
      | ch :: rest =>
        by_cases opens : ∃ bracketed, ch = NameFront.opens bracketed
        · obtain ⟨bracketed, rfl⟩ := opens
          rw [verdict_open]
          rcases environment_cases utf8_mode MAX_GVSUBSCRIPTS (NameFront.closes_cases bracketed) rest
            false 0 0 with refused | ⟨parts, extra, behind, passed, rfl⟩
          · exact .inl refused
          obtain ⟨envpart, instring, point, previous, same⟩ := verdict_environment
            MAX_GVSUBSCRIPTS (NameFront.closes_cases bracketed) passed behind false 0 0
          rw [same]
          have built : (NameFront.environment bracketed parts).Built (Passing utf8_mode) := by
            cases passed with
            | one first => exact ⟨.inl rfl, by simpa using first⟩
            | two first second => exact ⟨.inr rfl, by simpa using ⟨first, _, second⟩⟩
          match behind with
          | [] => exact .inl (verdict_end rfl)
          | first :: behind =>
            refine (name_cases (.inr (.inr rfl)) (minus_one_le _) _ instring point previous
              fun other => if_neg other).imp_right fun found => ?_
            have recognized := recognized_of _ built (fun _ _ => rfl) found
            have text : (NameFront.environment bracketed parts).text ++ first :: behind =
                Ascii.caret :: NameFront.opens bracketed :: (separated parts ++
                  NameFront.closes bracketed :: first :: behind) := by
              simp [NameFront.text]
            rw [text] at recognized
            exact recognized
        · refine (name_cases (.inr (.inl rfl)) (minus_one_le _) 1 false 0 0 fun other => ?_).imp_right
            fun found => recognized_of .global trivial (fun _ _ => rfl) found
          show (if ch = Ascii.percent ∨ isAlpha ch = true then _ else
            if ch = Ascii.bar ∨ ch = Ascii.open_bracket then _ else none) = none
          rw [if_neg other, if_neg]
          rintro (bar | bracket)
          · exact opens ⟨false, bar⟩
          · exact opens ⟨true, bracket⟩
    · show verdict utf8_mode (if ch = Ascii.caret then _ else _) _ = none ∨ _
      rw [if_neg caret]
      refine (name_cases (.inl rfl) (minus_one_le _) 0 false 0 0 fun other => ?_).imp_right
        fun found => recognized_of .empty trivial (fun _ _ => rfl) found
      show (if ch = Ascii.caret then _ else _) = none
      rw [if_neg caret]
      exact if_neg other

end

/-! ## Subscripts -/

theorem bounds_getElem? (offset : Nat) (subs : List (List UInt8)) {i : Nat} {sub : List UInt8}
    (found : subs[i]? = some sub) :
    (bounds offset subs)[i]? =
      some (offset + ((subs.take i).flatMap (· ++ [Ascii.comma])).length,
        offset + ((subs.take i).flatMap (· ++ [Ascii.comma])).length + sub.length) := by
  induction subs generalizing offset i with
  | nil => simp at found
  | cons w subs ih =>
    cases i with
    | zero =>
      obtain rfl : w = sub := by simpa using found
      simp [bounds]
    | succ i =>
      rw [List.getElem?_cons_succ] at found
      rw [bounds, List.getElem?_cons_succ, ih _ found]
      simp only [List.take_succ_cons, List.flatMap_cons, List.length_append, List.length_singleton]
      congr 2 <;> omega

theorem separated_split (subs : List (List UInt8)) {i : Nat} {sub : List UInt8}
    (found : subs[i]? = some sub) (tail : List UInt8) :
    (subs.take i).flatMap (· ++ [Ascii.comma]) ++ sub <+: separated subs ++ tail := by
  induction subs generalizing i with
  | nil => simp at found
  | cons w subs ih =>
    cases i with
    | zero =>
      obtain rfl : w = sub := by simpa using found
      by_cases none : subs = []
      · subst none
        simp [separated]
      · rw [separated_cons none]
        simp
    | succ i =>
      rw [List.getElem?_cons_succ] at found
      have some : subs ≠ [] := by
        rintro rfl
        simp at found
      rw [separated_cons some]
      simpa using ih found

theorem Reference.before_prefix (r : Reference) {i : Nat} {sub : List UInt8}
    (found : r.subs[i]? = some sub) : r.before i ++ sub <+: r.text := by
  have some : r.subs ≠ [] := by
    intro none
    rw [none] at found
    simp at found
  obtain ⟨tail, split⟩ := separated_split r.subs found [Ascii.close_paren]
  refine ⟨tail, ?_⟩
  rw [Reference.text, subsText, if_neg some, ← split]
  simp [Reference.before]

theorem NameFront.stop_length (front : NameFront) : front.stop.length = front.start.length := by
  cases front <;> rfl

/-- What is returned for a subscript of a text that is taken. -/
theorem is_canonic_name_at {utf8_mode : Bool} {r : Reference} {src : List UInt8} {extra : List Nat}
    (parsed : parse_gv_name_and_subscripts utf8_mode src = some (r.noted extra)) {i : Nat}
    (listed : i < r.subs.length) :
    is_canonic_name utf8_mode src (i + 1) = some (r.subs.length, (r.before i).length,
      (r.noted extra).stop.getD (r.front.stop.length + (i + 1)) 0) := by
  unfold is_canonic_name
  rw [parsed]
  have index : ((r.noted extra).contains_env + ((i : Int) + 1)).toNat = r.front.start.length + (i + 1) := by
    show ((r.front.start.length : Int) + ((i : Int) + 1)).toNat = _
    omega
  have bound := bounds_getElem? (r.front.text.length + r.name.length + 1) r.subs
    (List.getElem?_eq_getElem listed)
  have range : ¬ (0 > ((r.noted extra).contains_env : Int) + ((i : Int) + 1) ∨
      ((r.noted extra).subscripts : Int) < (i : Int) + 1) := by
    show ¬ (0 > (r.front.start.length : Int) + _ ∨ (r.subs.length : Int) < _)
    omega
  have start : (r.noted extra).start.getD (r.front.start.length + (i + 1)) 0 =
      (r.before i).length := by
    rw [List.getD_eq_getElem?_getD]
    simp only [Reference.noted]
    rw [List.getElem?_append_right (Nat.le_add_right _ _), Nat.add_sub_cancel_left,
      List.getElem?_cons_succ, List.getElem?_map, bound]
    simp only [Option.map_some, Option.getD_some, Reference.before, List.length_append,
      List.length_cons]
    omega
  show (if _ then _ else some _) = some _
  rw [if_neg range, index, start, NameFront.stop_length]
  rfl

/-- A subscript is found where it stands. -/
theorem is_canonic_name_subscript {utf8_mode : Bool} {r : Reference} {src : List UInt8}
    (parsed : parse_gv_name_and_subscripts utf8_mode src = some (r.noted [])) {i : Nat}
    {sub : List UInt8} (found : r.subs[i]? = some sub) :
    is_canonic_name utf8_mode src (i + 1) =
      some (r.subs.length, (r.before i).length, (r.before i ++ sub).length) := by
  obtain ⟨listed, _⟩ := List.getElem?_eq_some_iff.mp found
  have bound := bounds_getElem? (r.front.text.length + r.name.length + 1) r.subs found
  have stop : (r.noted []).stop.getD (r.front.stop.length + (i + 1)) 0 =
      (r.before i ++ sub).length := by
    rw [List.getD_eq_getElem?_getD]
    simp only [Reference.noted, List.append_nil]
    rw [List.getElem?_append_right (Nat.le_add_right _ _), Nat.add_sub_cancel_left,
      List.getElem?_cons_succ, List.getElem?_map, bound]
    simp only [Option.map_some, Option.getD_some, Reference.before, List.length_append,
      List.length_cons]
    omega
  rw [is_canonic_name_at parsed listed, stop]

theorem is_canonic_name_some {utf8_mode : Bool} {src : List UInt8} {seq : Int}
    {found : Nat × Nat × Nat} (name : is_canonic_name utf8_mode src seq = some found) :
    ∃ parsed, parse_gv_name_and_subscripts utf8_mode src = some parsed := by
  obtain ⟨parsed, success, _⟩ := Option.bind_eq_some_iff.mp name
  exact ⟨parsed, success⟩

theorem is_canonic_name_of_parse {utf8_mode : Bool} {src : List UInt8} {parsed : NameComponents}
    (success : parse_gv_name_and_subscripts utf8_mode src = some parsed) (seq : Int) :
    ∃ start stop, is_canonic_name utf8_mode src seq = some (parsed.subscripts, start, stop) := by
  unfold is_canonic_name
  rw [success]
  by_cases outside : 0 > parsed.contains_env + seq ∨ parsed.subscripts < seq
  · exact ⟨0, 0, if_pos outside⟩
  · exact ⟨_, _, if_neg outside⟩

theorem Reference.Built.extra {utf8_mode : Bool} {r : Reference}
    (built : r.Built (RightComponent utf8_mode)) : ∃ extra, Extra utf8_mode r.front extra := by
  obtain ⟨front, name, subs⟩ := r
  match front with
  | .empty => exact ⟨[], rfl⟩
  | .global => exact ⟨[], rfl⟩
  | .environment _ parts =>
    exact envPassed_of built.front.1 fun w member => (built.front.2 w member).passing

theorem Reference.Built.plain {utf8_mode : Bool} {r : Reference}
    (built : r.Built (RightComponent utf8_mode)) (plain : r.front.Plain utf8_mode) :
    Extra utf8_mode r.front [] := by
  obtain ⟨front, name, subs⟩ := r
  match front with
  | .empty => exact rfl
  | .global => exact rfl
  | .environment _ parts =>
    exact envPassed_plain built.front.1 (fun w member => (built.front.2 w member).passing) plain

/-- Every right reference is recognized with its number of subscripts, and each subscript
is delimited exactly unless a second component of an environment is zero or ends with a
call. What is recognized is a reference whose components pass, except that a list may
have one subscript too many. -/
theorem canonic_names_are_recognized (utf8_mode : Bool) :
    (∀ r : Reference, r.Built (RightComponent utf8_mode) → r.subs.length ≤ r.limit →
      (∀ seq, ∃ start stop, is_canonic_name utf8_mode r.text seq =
        some (r.subs.length, start, stop)) ∧
      (r.front.Plain utf8_mode → ∀ i sub, r.subs[i]? = some sub →
        r.before i ++ sub <+: r.text ∧ is_canonic_name utf8_mode r.text (i + 1) =
          some (r.subs.length, (r.before i).length, (r.before i ++ sub).length))) ∧
    ∀ src seq found, is_canonic_name utf8_mode src seq = some found → Recognized utf8_mode src := by
  constructor
  · intro r built few
    have passing : ∀ w ∈ r.subs, Passing utf8_mode w := fun w member => (built.subs w member).passing
    constructor
    · intro seq
      obtain ⟨extra, front⟩ := built.extra
      exact is_canonic_name_of_parse (parse_reference front built.name passing few) seq
    · intro plain i sub found
      have parsed := parse_reference (built.plain plain) built.name passing few
      exact ⟨r.before_prefix found, is_canonic_name_subscript parsed found⟩
  · intro src seq found name
    obtain ⟨parsed, success⟩ := is_canonic_name_some name
    rcases parse_cases src with refused | recognized
    · exact absurd (refused.symm.trans success) (by simp)
    · exact recognized

/-- A character in quotes. -/
def quotedChar (ch : UInt8) : List UInt8 := [Ascii.quote, ch, Ascii.quote]

theorem nameQuoted_char {ch : UInt8} (single : followers false ch = 0) (plain : ch ≠ Ascii.quote) :
    NameQuoted false [ch, Ascii.quote] := by
  have width : ([] : List UInt8).length = followers false ch := single.symm
  exact .char plain width .close

/-- The reference `^|"a","b"|x("c",-1.5)`. -/
def environmentReference : Reference :=
  ⟨.environment false [quotedChar 0x61, quotedChar 0x62], [0x78],
    [quotedChar 0x63, [0x2d, 0x31, 0x2e, 0x35]]⟩

/-- A name with an environment of two strings. -/
theorem canonic_names_are_recognized_environment :
    (∀ seq, ∃ start stop, is_canonic_name false environmentReference.text seq =
      some (2, start, stop)) ∧
    (∀ i sub, environmentReference.subs[i]? = some sub →
      environmentReference.before i ++ sub <+: environmentReference.text ∧
        is_canonic_name false environmentReference.text (i + 1) =
          some (2, (environmentReference.before i).length,
            (environmentReference.before i ++ sub).length)) ∧
    Recognized false environmentReference.text := by
  have quoted : ∀ ch ∈ [0x61, 0x62, 0x63], IsComponent false false (quotedChar ch) := by
    intro ch member
    apply Component.expression
    apply StringExpr.quoted
    simp only [List.mem_cons, List.not_mem_nil, or_false] at member
    rcases member with rfl | rfl | rfl
    · exact nameQuoted_char rfl (by decide)
    · exact nameQuoted_char rfl (by decide)
    · exact nameQuoted_char rfl (by decide)
  have number : IsComponent false false [0x2d, 0x31, 0x2e, 0x35] := by
    refine .number (.inr ⟨[0x2d], [0x31], [0x2e, 0x35], rfl, ⟨.inr rfl, ?_, by decide, ?_⟩,
      by decide, by decide⟩) (by decide)
    · unfold AllDigits
      exact List.forall_mem_singleton.mpr (by decide)
    · refine .inr ⟨[0x35], rfl, ?_, by decide⟩
      unfold AllDigits
      exact List.forall_mem_singleton.mpr (by decide)
  have built : environmentReference.Built (RightComponent false) := by
    refine ⟨⟨.inr rfl, ?_⟩, ⟨0x78, [], rfl, by decide, by simp⟩, ?_⟩
    · intro w member
      rcases List.mem_pair.mp member with rfl | rfl
      · exact ⟨false, quoted 0x61 (by decide)⟩
      · exact ⟨false, quoted 0x62 (by decide)⟩
    · intro w member
      rcases List.mem_pair.mp member with rfl | rfl
      · exact ⟨false, quoted 0x63 (by decide)⟩
      · exact ⟨false, number⟩
  obtain ⟨counted, delimited⟩ := (canonic_names_are_recognized false).1 environmentReference built
    (by decide)
  obtain ⟨start, stop, success⟩ := counted 1
  exact ⟨counted, delimited (quoted 0x62 (by decide)),
    (canonic_names_are_recognized false).2 environmentReference.text 1 _ success⟩

/-- Two quoted strings may not be joined: `x("a"_"b")` is refused, although its subscript
is an expression of quoted strings. -/
theorem joined_quoted_strings_are_refused :
    let sub : List UInt8 := [0x22, 0x61, 0x22, 0x5f, 0x22, 0x62, 0x22]
    let r : Reference := ⟨.empty, [0x78], [sub]⟩
    r.Built (fun w => ∃ always, Component false (fun _ _ => True) IsNumber IsCall always w) ∧
      r.text = [0x78, 0x28] ++ sub ++ [0x29] ∧ is_canonic_name false r.text 1 = none := by
  refine ⟨⟨trivial, ⟨0x78, [], rfl, by decide, by simp⟩, ?_⟩, rfl, by decide⟩
  intro w member
  rw [List.mem_singleton.mp member]
  have second : StringExpr false (fun _ _ => True) IsCall true false [0x22, 0x62, 0x22] :=
    .quoted (nameQuoted_char rfl (by decide))
  exact ⟨false, .expression (.quotedJoin (nameQuoted_char rfl (by decide)) trivial second)⟩

end Ydb
