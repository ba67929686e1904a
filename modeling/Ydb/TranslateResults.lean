import Ydb.TranslateCharacters

/-!
# What the tables translate

In both kinds of table the first entry for a character rules, so that a table built from two strings
gives each character what its first place in the search string says. With that table the loops over the
source give its translation.
-/

namespace Ydb.Translate

open Lib

/-! ## Bytes -/

/-- What an entry for a byte says. -/
def byteMeaning (entry : Int) (val : UInt8) : List UInt8 :=
  if DELETE_VALUE ≠ entry then if NO_VALUE = entry then [val] else [UInt8.ofNat entry.toNat] else []

theorem note_same {xlate : UInt8 → Int} {index : UInt8} {value : Int} (empty : xlate index = NO_VALUE) :
    note xlate index value index = value := by
  rw [note, if_pos empty, Function.update_self]

theorem note_other {xlate : UInt8 → Int} {index other : UInt8} {value : Int}
    (different : other ≠ index ∨ xlate other ≠ NO_VALUE) : note xlate index value other = xlate other := by
  unfold note
  by_cases empty : xlate index = NO_VALUE
  · rw [if_pos empty]
    apply Function.update_of_ne
    rcases different with different | noted
    · exact different
    · intro same
      rw [same] at noted
      exact noted empty
  · rw [if_neg empty]

theorem deleteBytes_noted {srch : List UInt8} {xlate : UInt8 → Int} {val : UInt8}
    (noted : xlate val ≠ NO_VALUE) : deleteBytes srch xlate val = xlate val := by
  induction srch generalizing xlate with
  | nil => rfl
  | cons scur srch ih =>
    have kept : note xlate scur DELETE_VALUE val = xlate val := note_other (.inr noted)
    have step : deleteBytes (scur :: srch) xlate = deleteBytes srch (note xlate scur DELETE_VALUE) := rfl
    rw [step, ih (by rw [kept]; exact noted), kept]

theorem deleteBytes_empty {srch : List UInt8} {xlate : UInt8 → Int} {val : UInt8}
    (empty : xlate val = NO_VALUE) :
    byteMeaning (deleteBytes srch xlate val) val = substitute srch [] val := by
  induction srch generalizing xlate with
  | nil =>
    have none : deleteBytes [] xlate val = NO_VALUE := empty
    rw [none, substitute_nil]
    rfl
  | cons scur srch ih =>
    have step : deleteBytes (scur :: srch) xlate = deleteBytes srch (note xlate scur DELETE_VALUE) := rfl
    rw [step]
    by_cases same : scur = val
    · subst same
      have deleted : note xlate scur DELETE_VALUE scur = DELETE_VALUE := note_same empty
      rw [deleteBytes_noted (by rw [deleted]; decide), deleted, substitute_first]
      rfl
    · rw [ih ((note_other (.inl (Ne.symm same))).trans empty), substitute_later same]
      rfl

/-- Bytes are paired from the first on. -/
theorem pairBytes_spec {srch rplc : List UInt8} {xlate : UInt8 → Int} {val : UInt8} :
    (xlate val ≠ NO_VALUE →
      deleteBytes (pairBytes srch rplc xlate).2 (pairBytes srch rplc xlate).1 val = xlate val) ∧
    (xlate val = NO_VALUE →
      byteMeaning (deleteBytes (pairBytes srch rplc xlate).2 (pairBytes srch rplc xlate).1 val) val =
        substitute srch rplc val) := by
  induction srch generalizing rplc xlate with
  | nil =>
    have step : pairBytes [] rplc xlate = (xlate, []) := by
      cases rplc <;> rfl
    rw [step]
    constructor
    · intro _
      rfl
    · intro empty
      exact deleteBytes_empty empty
  | cons scur srch ih =>
    cases rplc with
    | nil => exact ⟨deleteBytes_noted, deleteBytes_empty⟩
    | cons rcur rplc =>
      have step : pairBytes (scur :: srch) (rcur :: rplc) xlate =
          pairBytes srch rplc (note xlate scur rcur.toNat) := rfl
      rw [step]
      obtain ⟨noted, empty⟩ := @ih rplc (note xlate scur rcur.toNat)
      constructor
      · intro before
        have kept : note xlate scur rcur.toNat val = xlate val := note_other (.inr before)
        rw [noted (by rw [kept]; exact before), kept]
      · intro before
        by_cases same : scur = val
        · subst same
          have written : note xlate scur rcur.toNat scur = rcur.toNat := note_same before
          have notEmpty : ((rcur.toNat : Nat) : Int) ≠ NO_VALUE := by
            unfold NO_VALUE
            omega
          have notDeleted : DELETE_VALUE ≠ (rcur.toNat : Nat) := by
            unfold DELETE_VALUE
            omega
          rw [noted (by rw [written]; exact notEmpty), written, substitute_first, byteMeaning,
            if_pos notDeleted, if_neg (Ne.symm notEmpty), Int.toNat_natCast, UInt8.ofNat_toNat]
          rfl
        · rw [empty ((note_other (.inl (Ne.symm same))).trans before), substitute_later same]
          rfl

/-- The table of bytes translates. -/
theorem byte_table_translates (src srch rplc : List UInt8) :
    op_fnztranslate_common src (create_byte_xlate_table srch rplc) = translate srch rplc src := by
  unfold op_fnztranslate_common Lib.translate
  congr 1
  funext val
  exact (@pairBytes_spec srch rplc (fun _ => NO_VALUE) val).2 rfl

/-! ## Characters -/

/-- An entry of the table for single bytes, if it is one. -/
def known (entry : Int) : Option Int := if entry = NO_VALUE then none else some entry

/-- What is noted of a character. -/
def Tables.noted (tables : Tables) (c : List UInt8) : Option Int :=
  if c.length = 1 then known (tables.xlate (c.headD 0))
  else tables.hash.bind fun table => (UTF8_MBTOWC c).1.bind table

/-- The entry for a place in the replacement string, or for no place. -/
def entryOf (c : List UInt8) : Option Nat → Int
  | some offset => if c.length = 1 then offset else offset + 1
  | none => if c.length = 1 then DELETE_VALUE else MAXPOSINT4

/-- There is a hash table for a character that needs one. -/
def Tables.Takes (tables : Tables) (c : List UInt8) : Prop := c.length ≠ 1 → tables.hash.isSome

theorem head_append {c : List UInt8} (char : IsChar c) (rest : List UInt8) :
    (c ++ rest).headD 0 = c.headD 0 := by
  cases c with
  | nil => exact absurd rfl char.ne_nil
  | cons ch c => rfl

theorem entryOf_ne (c : List UInt8) (place : Option Nat) : entryOf c place ≠ NO_VALUE := by
  cases place with
  | none =>
    by_cases single : c.length = 1
    · rw [entryOf, if_pos single]
      decide
    · rw [entryOf, if_neg single]
      decide
  | some offset =>
    have nonneg : (0 : Int) ≤ offset := Int.natCast_nonneg offset
    unfold entryOf NO_VALUE
    dsimp only
    split <;> omega

theorem note_single {tables : Tables} {c : List UInt8} (char : IsChar c) (one : c.length = 1)
    (value hashed : Int) (rest : List UInt8) :
    tables.note (c ++ rest) value hashed =
      { tables with xlate := note tables.xlate (c.headD 0) value } := by
  obtain ⟨code, read⟩ := id char
  unfold Tables.note
  rw [IsChar.read read, head_append char]
  exact if_pos one

theorem note_several {tables : Tables} {c : List UInt8} {code : Nat}
    (read : UTF8_MBTOWC c = (some code, c.length)) (long : c.length ≠ 1) (value hashed : Int)
    (rest : List UInt8) :
    tables.note (c ++ rest) value hashed =
      { tables with
        hash := tables.hash.map fun table =>
          if table code = none then Function.update table code (some hashed) else table } := by
  unfold Tables.note
  rw [IsChar.read read]
  exact if_neg long

/-- Noting a character. -/
theorem noted_note {tables : Tables} {c : List UInt8} (char : IsChar c) (takes : tables.Takes c)
    (place : Option Nat) {value hashed : Int} (single : c.length = 1 → value = entryOf c place)
    (several : c.length ≠ 1 → hashed = entryOf c place) (rest : List UInt8) {d : List UInt8}
    (other : IsChar d) :
    (tables.note (c ++ rest) value hashed).noted d =
      (tables.noted d).or (if d = c then some (entryOf c place) else none) := by
  obtain ⟨code, read⟩ := id char
  obtain ⟨code', read'⟩ := id other
  by_cases one : c.length = 1
  · rw [note_single char one]
    unfold Tables.noted
    dsimp only
    by_cases one' : d.length = 1
    · rw [if_pos one', if_pos one']
      obtain ⟨b, rfl⟩ := List.length_eq_one_iff.mp one
      obtain ⟨b', rfl⟩ := List.length_eq_one_iff.mp one'
      rw [List.headD_cons, List.headD_cons, single rfl]
      by_cases same : b' = b
      · subst same
        by_cases empty : tables.xlate b' = NO_VALUE
        · rw [note_same empty, empty, known, if_neg (entryOf_ne _ _), if_pos rfl]
          rfl
        · rw [note_other (.inr empty), known, if_neg empty, Option.some_or]
      · have different : [b'] ≠ [b] := fun equal => same (List.cons.inj equal).1
        rw [note_other (.inl same), if_neg different, Option.or_none]
    · have different : d ≠ c := fun equal => one' (equal ▸ one)
      rw [if_neg one', if_neg one', if_neg different, Option.or_none]
  · rw [note_several read one]
    unfold Tables.noted
    dsimp only
    by_cases one' : d.length = 1
    · have different : d ≠ c := fun equal => one (equal ▸ one')
      rw [if_pos one', if_pos one', if_neg different, Option.or_none]
    · rw [if_neg one', if_neg one', several one, read']
      obtain ⟨table, found⟩ := Option.isSome_iff_exists.mp (takes one)
      rw [found, Option.map_some, Option.bind_some, Option.bind_some, Option.bind_some,
        Option.bind_some]
      by_cases same : d = c
      · subst same
        obtain rfl : code = code' := by
          rw [read] at read'
          exact Option.some.inj (Prod.mk.inj read').1
        by_cases empty : table code = none
        · rw [if_pos empty, Function.update_self, empty, if_pos rfl, Option.none_or]
        · rw [if_neg empty, if_pos rfl]
          cases noted : table code with
          | none => exact absurd noted empty
          | some _ => rfl
      · have differ : code' ≠ code := by
          rintro rfl
          exact same (IsChar.eq read' read)
        rw [if_neg same, Option.or_none]
        by_cases empty : table code = none
        · rw [if_pos empty, Function.update_of_ne differ]
        · rw [if_neg empty]

theorem takes_note {tables : Tables} {str : List UInt8} {value hashed : Int} {d : List UInt8}
    (takes : tables.Takes d) : (tables.note str value hashed).Takes d := by
  intro long
  have isSome := takes long
  unfold Tables.note
  dsimp only
  split
  · exact isSome
  · rw [Option.isSome_map]
    exact isSome

/-- What the characters of the search string are noted with when nothing replaces them. -/
theorem noted_deleteChars {S : List (List UInt8)} (valid : ∀ c ∈ S, IsChar c) {tables : Tables}
    (takes : ∀ c ∈ S, tables.Takes c) {rounds : Nat} (enough : S.flatten.length ≤ rounds)
    {d : List UInt8} (char : IsChar d) :
    (deleteChars rounds S.flatten tables).noted d =
      (tables.noted d).or ((place S d).map fun _ => entryOf d none) := by
  induction S generalizing tables rounds with
  | nil =>
    have done : deleteChars rounds [] tables = tables := by
      cases rounds with
      | zero => rfl
      | succ rounds => exact if_pos rfl
    rw [List.flatten_nil, done]
    exact Option.or_none.symm
  | cons c S ih =>
    obtain ⟨here, others⟩ := List.forall_mem_cons.mp valid
    obtain ⟨takesHere, takesOthers⟩ := List.forall_mem_cons.mp takes
    have positive := here.pos
    have nonempty : c ++ S.flatten ≠ [] := fun empty => here.ne_nil (List.append_eq_nil_iff.mp empty).1
    rw [List.flatten_cons] at enough ⊢
    rw [List.length_append] at enough
    obtain ⟨code, read⟩ := id here
    cases rounds with
    | zero => omega
    | succ rounds =>
      rw [deleteChars, if_neg nonempty, IsChar.read read, List.drop_left,
        ih others (fun c member => takes_note (takesOthers c member)) (by omega),
        noted_note here takesHere none (fun single => (if_pos single).symm)
          (fun several => (if_neg several).symm) S.flatten char]
      by_cases same : d = c
      · subst same
        rw [if_pos rfl, place_first, Option.map_some]
        cases tables.noted d with
        | some _ => rfl
        | none => rfl
      · rw [if_neg same, place_later (Ne.symm same), Option.or_none, Option.map_map]
        rfl

/-- What the characters of the search string are noted with. -/
theorem noted_pairChars {S R : List (List UInt8)} (validS : ∀ c ∈ S, IsChar c)
    (validR : ∀ r ∈ R, IsChar r) {tables : Tables} (takes : ∀ c ∈ S, tables.Takes c)
    {rounds rounds' : Nat} (enough : S.flatten.length ≤ rounds) (enough' : S.flatten.length ≤ rounds')
    (offset : Nat) {d : List UInt8} (char : IsChar d) :
    (deleteChars rounds' (pairChars rounds S.flatten R.flatten offset tables).2
        (pairChars rounds S.flatten R.flatten offset tables).1).noted d =
      (tables.noted d).or ((place S d).map fun i =>
        entryOf d (if i < R.length then some (offset + (R.take i).flatten.length) else none)) := by
  induction S generalizing R tables rounds offset with
  | nil =>
    have done : pairChars rounds [] R.flatten offset tables = (tables, []) := by
      cases rounds with
      | zero => rfl
      | succ rounds => exact if_pos (.inl rfl)
    rw [List.flatten_nil, done]
    have empty := @noted_deleteChars [] (by simp) tables (by simp) rounds' (Nat.zero_le _) d char
    exact empty
  | cons c S ih =>
    obtain ⟨here, others⟩ := List.forall_mem_cons.mp validS
    obtain ⟨takesHere, takesOthers⟩ := List.forall_mem_cons.mp takes
    have positive := here.pos
    cases R with
    | nil =>
      have done : pairChars rounds (c :: S).flatten [] offset tables = (tables, (c :: S).flatten) := by
        cases rounds with
        | zero => rfl
        | succ rounds => exact if_pos (.inr rfl)
      rw [List.flatten_nil, done, noted_deleteChars validS takes enough' char]
      rfl
    | cons r R =>
      obtain ⟨hereR, othersR⟩ := List.forall_mem_cons.mp validR
      obtain ⟨code, read⟩ := id here
      obtain ⟨codeR, readR⟩ := id hereR
      rw [List.flatten_cons, List.length_append] at enough enough'
      have nonempty : ¬ (c ++ S.flatten = [] ∨ r ++ R.flatten = []) := by
        rintro (empty | empty)
        · exact here.ne_nil (List.append_eq_nil_iff.mp empty).1
        · exact hereR.ne_nil (List.append_eq_nil_iff.mp empty).1
      cases rounds with
      | zero => omega
      | succ rounds =>
        have step : pairChars (rounds + 1) (c :: S).flatten (r :: R).flatten offset tables =
            pairChars rounds S.flatten R.flatten ((offset + r.length : Nat) : Int)
              (tables.note (c ++ S.flatten) offset (offset + 1)) := by
          rw [List.flatten_cons, List.flatten_cons, pairChars, if_neg nonempty, IsChar.read read,
            IsChar.read readR]
          dsimp only
          rw [List.drop_left, List.drop_left, Nat.cast_add]
        rw [step, ih others othersR
          (fun c member => takes_note (takesOthers c member)) (by omega) (by omega),
          noted_note here takesHere (some offset) (fun single => (if_pos single).symm)
            (fun several => (if_neg several).symm) S.flatten char]
        by_cases same : d = c
        · subst same
          have within : 0 < (r :: R).length := Nat.zero_lt_succ _
          rw [if_pos rfl, place_first, Option.map_some, if_pos within]
          cases tables.noted d with
          | some _ => rfl
          | none => rfl
        · rw [if_neg same, place_later (Ne.symm same), Option.or_none, Option.map_map]
          congr 1
          cases place S d with
          | none => rfl
          | some i =>
            rw [Option.map_some, Option.map_some, Function.comp_apply, List.take_succ_cons,
              List.flatten_cons, List.length_append, List.length_cons, Nat.add_assoc]
            by_cases within : i < R.length
            · rw [if_pos within, if_pos (Nat.succ_lt_succ within)]
            · rw [if_neg within, if_neg fun less => within (Nat.lt_of_succ_lt_succ less)]

/-! ## Tables from two strings -/

/-- The tables say where the character of the replacement string begins that stands for a character. -/
def Tables.Translates (tables : Tables) (S R : List (List UInt8)) : Prop :=
  ∀ d, IsChar d → tables.noted d = (place S d).map fun i =>
    entryOf d (if i < R.length then some (R.take i).flatten.length else none)

theorem clear_all {xlate_len : Nat} (enough : NUM_CHARS * SIZEOF_int4 ≤ xlate_len) (xlate : UInt8 → Int)
    (index : UInt8) : clear xlate_len xlate index = NO_VALUE := by
  have bound := index.toNat_lt
  unfold NUM_CHARS SIZEOF_int4 at enough
  apply if_pos
  unfold SIZEOF_int4
  omega

theorem single_chars {str : List UInt8} (valid : valid_utf_string str = true)
    (same : str.length = utf8_len str) : ∀ c ∈ chars str, c.length = 1 := by
  apply single_of_length
  · intro c member
    exact (isChar_of_valid valid c member).pos
  · rw [flatten_chars, length_chars, same]

/-- The tables say what is replaced. -/
theorem created_translates {srch rplc : List UInt8} (validS : valid_utf_string srch = true)
    (validR : valid_utf_string rplc = true) {xlate_len : Nat} {xlate : UInt8 → Int} {tables : Tables}
    (created : create_utf8_xlate_table srch rplc xlate_len xlate = some tables) :
    tables.Translates (chars srch) (chars rplc) := by
  intro d char
  unfold create_utf8_xlate_table at created
  split at created
  · rename_i asserted
    have result := Option.some.inj created
    have cleared := clear_all asserted.2 xlate
    rw [← result]
    clear result created
    generalize starts : (⟨clear xlate_len xlate, if srch.length = utf8_len srch then none
      else some fun _ => none⟩ : Tables) = start
    have unnoted : start.noted d = none := by
      rw [← starts]
      unfold Tables.noted
      dsimp only
      split
      · rw [cleared]
        rfl
      · split
        · rfl
        · rw [Option.bind_some]
          exact Option.bind_fun_none _
    have takes : ∀ c ∈ chars srch, start.Takes c := by
      intro c member long
      by_cases same : srch.length = utf8_len srch
      · exact absurd (single_chars validS same c member) long
      · rw [← starts, if_neg same]
        rfl
    have enough : (chars srch).flatten.length ≤ srch.length := by
      rw [flatten_chars]
    have noted := noted_pairChars (isChar_of_valid validS) (isChar_of_valid validR) takes enough enough
      0 char
    rw [flatten_chars, flatten_chars, unnoted, Option.none_or] at noted
    rw [Int.natCast_zero] at noted
    rw [noted]
    congr 1
    funext i
    rw [Nat.zero_add]
  · cases created

/-! ## The loop over the source -/

theorem charAt_take {R : List (List UInt8)} (valid : ∀ r ∈ R, IsChar r) {i : Nat} (within : i < R.length) :
    charAt R.flatten (R.take i).flatten.length = R[i] := by
  have parts : R.flatten = (R.take i).flatten ++ (R[i] ++ (R.drop (i + 1)).flatten) := by
    rw [← List.flatten_cons, ← List.drop_eq_getElem_cons within, ← List.flatten_append,
      List.take_append_drop]
  obtain ⟨code, read⟩ := valid R[i] (List.getElem_mem within)
  unfold charAt
  rw [parts, List.drop_left]
  dsimp only
  rw [IsChar.read read, List.take_left]

theorem place_le {R : List (List UInt8)} (i : Nat) : (R.take i).flatten.length ≤ R.flatten.length := by
  have parts : R.flatten = (R.take i).flatten ++ (R.drop i).flatten := by
    rw [← List.flatten_append, List.take_append_drop]
  rw [parts, List.length_append]
  exact Nat.le_add_right _ _

variable {S R : List (List UInt8)} {tables : Tables}

/-- What the substitution does according to the place in the search list. -/
theorem substitute_place {d : List UInt8} :
    (substitute S R d).flatten =
      match place S d with
      | none => d
      | some i => if within : i < R.length then R[i] else [] := by
  unfold substitute
  cases place S d with
  | none => exact List.flatten_singleton
  | some i =>
    dsimp only
    by_cases within : i < R.length
    · rw [dif_pos within, List.getElem?_eq_getElem within]
      exact List.flatten_singleton
    · rw [dif_neg within, List.getElem?_eq_none (Nat.le_of_not_lt within)]
      rfl

theorem translateChar_single (translates : tables.Translates S R) (valid : ∀ r ∈ R, IsChar r)
    {d : List UInt8} (char : IsChar d) (single : d.length = 1) (rest : List UInt8)
    (code : Option Nat) :
    translateChar tables R.flatten (d ++ rest) code 1 = some (substitute S R d).flatten := by
  have meant := translates d char
  obtain ⟨b, rfl⟩ := List.length_eq_one_iff.mp single
  rw [Tables.noted, if_pos single, List.headD_cons] at meant
  rw [translateChar, if_pos rfl, substitute_place, List.cons_append, List.headD_cons]
  dsimp only
  cases found : place S [b] with
  | none =>
    rw [found, Option.map_none] at meant
    have empty : tables.xlate b = NO_VALUE := by
      by_contra noted
      rw [known, if_neg noted] at meant
      cases meant
    rw [empty]
    rfl
  | some i =>
    rw [found, Option.map_some] at meant
    have entry : tables.xlate b = entryOf [b] (if i < R.length then
        some (R.take i).flatten.length else none) := by
      by_cases noted : tables.xlate b = NO_VALUE
      · rw [known, if_pos noted] at meant
        cases meant
      · rw [known, if_neg noted] at meant
        exact Option.some.inj meant
    by_cases within : i < R.length
    · have value : tables.xlate b = ((R.take i).flatten.length : Int) := by
        rw [entry, if_pos within, entryOf, if_pos single]
      have notDeleted : DELETE_VALUE ≠ ((R.take i).flatten.length : Int) := by
        unfold DELETE_VALUE
        omega
      have notEmpty : NO_VALUE ≠ ((R.take i).flatten.length : Int) := by
        unfold NO_VALUE
        omega
      rw [value, if_pos notDeleted, if_neg notEmpty, Int.toNat_natCast, charAt_take valid within]
      dsimp only
      rw [dif_pos within]
    · have value : tables.xlate b = DELETE_VALUE := by
        rw [entry, if_neg within, entryOf, if_pos single]
      rw [value, if_neg fun different => different rfl]
      dsimp only
      rw [dif_neg within]

theorem translateChar_several (translates : tables.Translates S R) (valid : ∀ r ∈ R, IsChar r)
    (bounded : R.flatten.length ≤ MAX_STRLEN) {d : List UInt8} {code : Nat}
    (read : UTF8_MBTOWC d = (some code, d.length)) (long : d.length ≠ 1) (rest : List UInt8) :
    translateChar tables R.flatten (d ++ rest) (some code) d.length =
      some (substitute S R d).flatten := by
  have meant := translates d ⟨code, read⟩
  rw [Tables.noted, if_neg long, read] at meant
  rw [translateChar, if_neg long, substitute_place]
  cases hashed : tables.hash with
  | none =>
    rw [hashed, Option.bind_none] at meant
    cases found : place S d with
    | none => exact congrArg some List.take_left
    | some i =>
      rw [found] at meant
      cases meant
  | some table =>
    rw [hashed, Option.bind_some, Option.bind_some] at meant
    dsimp only
    rw [meant]
    cases place S d with
    | none => exact congrArg some List.take_left
    | some i =>
      rw [Option.map_some]
      dsimp only
      by_cases within : i < R.length
      · have least := @place_le R i
        have notLast : MAXPOSINT4 ≠ ((R.take i).flatten.length : Int) + 1 := by
          unfold MAX_STRLEN at bounded
          unfold MAXPOSINT4
          omega
        rw [if_pos within, dif_pos within, entryOf, if_neg long, if_pos notLast, Int.add_sub_cancel, Int.toNat_natCast,
          charAt_take valid within]
      · rw [if_neg within, dif_neg within, entryOf, if_neg long, if_neg fun different => different rfl]

/-- The loop over the source appends its translation. -/
theorem commonLoop_translates (translates : tables.Translates S R) (valid : ∀ r ∈ R, IsChar r)
    (bounded : R.flatten.length ≤ MAX_STRLEN) {X : List (List UInt8)} (validX : ∀ d ∈ X, IsChar d)
    {single_byte_src : Bool} (single : single_byte_src = true → ∀ d ∈ X, d.length = 1) {rounds : Nat}
    (enough : X.flatten.length ≤ rounds) {dst : List UInt8}
    (fits : (dst ++ (translate S R X).flatten).length ≤ MAX_STRLEN) :
    commonLoop tables R.flatten single_byte_src rounds X.flatten dst =
      .ok (dst ++ (translate S R X).flatten) := by
  induction X generalizing rounds dst with
  | nil =>
    have done : translate S R [] = [] := rfl
    rw [done, List.flatten_nil, List.append_nil]
    cases rounds with
    | zero => rfl
    | succ rounds => exact if_pos rfl
  | cons d X ih =>
    obtain ⟨char, others⟩ := List.forall_mem_cons.mp validX
    have positive := char.pos
    have step : (translate S R (d :: X)).flatten =
        (substitute S R d).flatten ++ (translate S R X).flatten := by
      unfold Lib.translate
      rw [List.flatMap_cons, List.flatten_append]
    rw [List.flatten_cons] at enough ⊢
    rw [List.length_append] at enough
    rw [step, ← List.append_assoc] at fits ⊢
    cases rounds with
    | zero => omega
    | succ rounds =>
      have nonempty : ¬ d ++ X.flatten = [] := fun empty =>
        char.ne_nil (List.append_eq_nil_iff.mp empty).1
      have short : ¬ MAX_STRLEN < (dst ++ (substitute S R d).flatten).length := by
        rw [List.length_append] at fits
        omega
      have read : ∃ code, (if single_byte_src then (none, 1) else UTF8_MBTOWC (d ++ X.flatten)) =
            (code, d.length) ∧
          translateChar tables R.flatten (d ++ X.flatten) code d.length =
            some (substitute S R d).flatten := by
        obtain ⟨code, reads⟩ := id char
        cases bytewise : single_byte_src with
        | true =>
          have one : d.length = 1 := (List.forall_mem_cons.mp (single bytewise)).1
          refine ⟨none, ?_, ?_⟩
          · rw [if_pos rfl, one]
          · rw [one]
            exact translateChar_single translates valid char one _ _
        | false =>
          refine ⟨some code, ?_, ?_⟩
          · rw [if_neg Bool.false_ne_true, IsChar.read reads]
          · by_cases one : d.length = 1
            · rw [one]
              exact translateChar_single translates valid char one _ _
            · exact translateChar_several translates valid bounded reads one _
      obtain ⟨code, reads, copied⟩ := read
      rw [commonLoop, if_neg nonempty, reads]
      dsimp only
      rw [copied]
      dsimp only
      rw [if_neg short, List.drop_left]
      apply ih others
      · intro bytewise
        exact (List.forall_mem_cons.mp (single bytewise)).2
      · omega
      · exact fits

/-- With the tables of the search and replacement strings the loop gives the translation. -/
theorem op_fntranslate_common_translates {src srch rplc : List UInt8}
    (translates : tables.Translates (chars srch) (chars rplc)) (validX : valid_utf_string src = true)
    (validR : valid_utf_string rplc = true) (bounded : rplc.length ≤ MAX_STRLEN)
    (fits : (translate (chars srch) (chars rplc) (chars src)).flatten.length ≤ MAX_STRLEN) :
    op_fntranslate_common src rplc tables =
      .ok (translate (chars srch) (chars rplc) (chars src)).flatten := by
  have result := @commonLoop_translates (chars srch) (chars rplc) tables translates
    (isChar_of_valid validR) (by rw [flatten_chars]; exact bounded) (chars src) (isChar_of_valid validX)
    (decide (src.length = utf8_len src))
    (fun same => single_chars validX (of_decide_eq_true same)) src.length
    (by rw [flatten_chars]) [] fits
  rw [flatten_chars, flatten_chars, List.nil_append] at result
  exact result

/-! ## Bytes for characters -/

theorem Shape.high {c : List UInt8} {code : Nat} (shape : Shape c code) (long : c.length ≠ 1) :
    ∀ b ∈ c, 0x7f < b.toNat := by
  have trailing : ∀ {b : UInt8}, b.toNat / 64 = 2 → 0x7f < b.toNat := by
    intro b second
    omega
  cases shape with
  | one first => exact absurd rfl long
  | two first second => simp [trailing second]; omega
  | three first second third least => simp [trailing second, trailing third]; omega
  | four first second third fourth least =>
    simp [trailing second, trailing third, trailing fourth]; omega

theorem IsChar.single {c : List UInt8} (char : IsChar c) (one : c.length = 1) :
    ∃ b : UInt8, c = [b] ∧ b.toNat ≤ 0x7f := by
  obtain ⟨code, read⟩ := char
  have shape := IsChar.shape read
  cases shape with
  | one first => exact ⟨_, rfl, first⟩
  | two | three | four => simp at one

theorem place_singles {T : List UInt8} {b : UInt8} : place (T.map fun b => [b]) [b] = place T b := by
  induction T with
  | nil => rfl
  | cons t T ih =>
    rw [List.map_cons]
    by_cases same : t = b
    · rw [same, place_first, place_first]
    · have different : [t] ≠ [b] := fun equal => same (List.cons.inj equal).1
      rw [place_later same, place_later different, ih]

/-- Where the search and the replacement string have characters of one byte, to translate bytes is to
translate characters. -/
theorem translate_singles {X : List (List UInt8)} (validX : ∀ d ∈ X, IsChar d) (validS : ∀ c ∈ S, IsChar c)
    (singleS : ∀ c ∈ S, c.length = 1) (singleR : ∀ r ∈ R, r.length = 1) :
    translate S.flatten R.flatten X.flatten = (translate S R X).flatten := by
  have asBytes : ∀ {L : List (List UInt8)}, (∀ c ∈ L, c.length = 1) → L = L.flatten.map fun b => [b] := by
    intro L single
    induction L with
    | nil => rfl
    | cons c L ih =>
      obtain ⟨one, others⟩ := List.forall_mem_cons.mp single
      obtain ⟨b, rfl⟩ := List.length_eq_one_iff.mp one
      rw [List.flatten_cons, List.singleton_append, List.map_cons, ← ih others]
  have low : ∀ b ∈ S.flatten, b.toNat ≤ 0x7f := by
    intro b member
    obtain ⟨c, inside, inC⟩ := List.mem_flatten.mp member
    obtain ⟨b', rfl, ascii⟩ := (validS c inside).single (singleS c inside)
    rw [List.mem_singleton.mp inC]
    exact ascii
  induction X with
  | nil => rfl
  | cons d X ih =>
    obtain ⟨char, others⟩ := List.forall_mem_cons.mp validX
    have here : d.flatMap (substitute S.flatten R.flatten) = (substitute S R d).flatten := by
      by_cases one : d.length = 1
      · obtain ⟨b, rfl, _⟩ := char.single one
        rw [List.flatMap_singleton]
        have places : place S [b] = place S.flatten b := by
          rw [← place_singles, ← asBytes singleS]
        have letters : ∀ i : Nat, R[i]? = (R.flatten[i]?).map fun b => [b] := by
          intro i
          rw [← List.getElem?_map, ← asBytes singleR]
        unfold substitute
        rw [places]
        cases place S.flatten b with
        | none => rfl
        | some i =>
          dsimp only
          rw [letters]
          cases R.flatten[i]? with
          | none => rfl
          | some r => rfl
      · have absent : d ∉ S := fun member => one (singleS d member)
        obtain ⟨code, read⟩ := char
        have high := (IsChar.shape read).high one
        rw [substitute_absent absent, List.flatten_singleton]
        have kept : ∀ b ∈ d, substitute S.flatten R.flatten b = [b] := by
          intro b member
          apply substitute_absent
          intro inside
          have ascii := low b inside
          have above := high b member
          omega
        have all : ∀ (e : List UInt8), (∀ b ∈ e, substitute S.flatten R.flatten b = [b]) →
            e.flatMap (substitute S.flatten R.flatten) = e := by
          intro e kept
          induction e with
          | nil => rfl
          | cons b e ih =>
            obtain ⟨first, behind⟩ := List.forall_mem_cons.mp kept
            rw [List.flatMap_cons, first, ih behind]
            rfl
        exact all d kept
    rw [List.flatten_cons]
    unfold Lib.translate at ih ⊢
    rw [List.flatMap_append, here, ih others, List.flatMap_cons, List.flatten_append]

end Ydb.Translate
