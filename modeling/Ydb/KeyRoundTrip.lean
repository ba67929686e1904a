import Ydb.KeyParsing

/-!
# Keys survive being printed

Each component of the text of a key converts to the code it was printed from, so
`gvn2gds` restores the key that `gds2gvn` printed, as long as the reference
parser admits the number of subscripts and a hidden subscript could still be
appended to the key.
-/

namespace Ydb

open Lib NameParse

/-! ## Appending a code -/

/-- The key with one more code. -/
def GvKey.grown (key : GvKey) (code : List UInt8) : GvKey :=
  { key with
    base := key.base.take key.end_ ++ (code ++ [KEY_DELIMITER, KEY_DELIMITER])
    prev := key.end_
    end_ := key.end_ + code.length + 1 }

/-- There is room for a code and the padding behind a key. -/
def GvKey.Room (key : GvKey) (code : List UInt8) : Prop :=
  key.end_ + code.length + 1 + (MAX_GVKEY_PADDING_LEN + 1) ≤ key.top

theorem appendSubscript_room {key : GvKey} {code : List UInt8} (room : key.Room code) :
    appendSubscript key code = .ok (key.grown code) := by
  unfold GvKey.Room at room
  rw [appendSubscript]
  dsimp only
  rw [if_neg (by push_cast; omega)]
  rfl

theorem escapeString_room {avail : Int} {bytes : List UInt8}
    (room : (escape bytes).length - bytes.length ≤ avail) :
    escapeString avail bytes = .ok (escape bytes) := by
  induction bytes generalizing avail with
  | nil => rfl
  | cons ch bytes ih =>
    have longer := escape_length bytes
    have split : escape (ch :: bytes) = escapeByte ch ++ escape bytes := rfl
    rw [split, escapeByte] at room ⊢
    rw [escapeString]
    by_cases low : ch ≤ 1
    · rw [if_pos low] at room ⊢
      simp only [List.length_append, List.length_cons, List.length_nil] at room
      push_cast at room
      rw [if_pos low, if_neg (by omega), ih (by omega)]
      rfl
    · rw [if_neg low] at room ⊢
      simp only [List.length_append, List.length_cons, List.length_nil] at room
      push_cast at room
      rw [if_neg low, ih (by omega)]
      rfl

/-- A string is encoded when its code fits. -/
theorem encodeString_room {key : GvKey} {s : Subscript} {code bytes : List UInt8}
    (coded : s.Code true code) (text : (s = .null ∧ bytes = []) ∨ s = .string bytes)
    (room : key.Room code) : encodeString key true bytes = .ok code := by
  unfold GvKey.Room at room
  rw [encodeString]
  rcases text with ⟨rfl, rfl⟩ | rfl
  · cases coded
    rw [if_neg (by simp at room ⊢; omega), if_pos rfl]
  · cases coded with
    | string _ some =>
      have longer := escape_length bytes
      rw [List.length_cons] at room
      rw [if_neg (by omega), if_neg some, escapeString_room (by omega)]
      rfl

/-- A value whose kind is settled is appended when its code fits. -/
theorem mval2subsc_room {env : SubscEnv} (plain : env.Plain) {v : Mval} {key : GvKey}
    {code : List UInt8} (notNull : v.mvtype.sqlnull = false)
    (settled : settleType env v v.mvtype.numApprox = .ok (v, v.mvtype.numApprox))
    (bytes : subscriptBytes env v v.mvtype.numApprox key true = .ok code) (room : key.Room code) :
    mval2subsc env v key true = .ok (v, key.grown code) := by
  simp only [mval2subsc, plain.nct, Bool.and_false, Bool.false_eq_true, if_false, Bool.false_or,
    notNull, settled]
  change (do
    let subscript ← subscriptBytes env v v.mvtype.numApprox key true
    let key ← appendSubscript key subscript
    return (v, key)) = _
  rw [bytes]
  change (do
    let key ← appendSubscript key code
    return (v, key)) = _
  rw [appendSubscript_room room]
  rfl

/-! ## Components -/

/-- Doubled quotes are read as one. -/
theorem copyQuoted_doubled (bytes str : List UInt8) (left : Nat) {next : UInt8}
    (notQuote : next ≠ Ascii.quote) (more : List UInt8) (inside : (doubled bytes).length < left)
    (room : str.length + bytes.length ≤ MAX_KEY_SZ + 1) :
    copyQuoted (doubled bytes ++ Ascii.quote :: next :: more) left str =
      some ⟨Ascii.quote :: next :: more, left - (doubled bytes).length, str ++ bytes⟩ := by
  induction bytes generalizing str left with
  | nil =>
    rw [doubled, List.flatMap_nil, List.nil_append, copyQuoted, if_neg (by simp [notQuote])]
    simp
  | cons ch bytes ih =>
    rw [doubled_cons] at inside ⊢
    rw [List.length_cons] at room
    by_cases isQuote : ch = Ascii.quote
    · subst isQuote
      rw [if_pos rfl] at inside ⊢
      simp only [List.length_append, List.length_cons, List.length_nil] at inside
      rw [List.cons_append, List.cons_append, List.cons_append, List.cons_append, copyQuoted,
        if_pos (by simp; omega), if_neg (by omega), if_pos rfl, List.nil_append,
        ih _ _ (by omega) (by
          rw [List.length_append, List.length_singleton]; omega)]
      simp only [List.length_cons, List.append_assoc, List.cons_append, List.nil_append]
      congr 2
      omega
    · rw [if_neg isQuote, List.singleton_append] at inside ⊢
      rw [List.length_cons] at inside
      obtain ⟨second, rest, behind⟩ : ∃ second rest,
          doubled bytes ++ Ascii.quote :: next :: more = second :: rest := by
        cases doubled bytes with
        | nil => exact ⟨_, _, rfl⟩
        | cons second rest => exact ⟨_, _, rfl⟩
      have copied := ih (str ++ [ch]) (left - 1) (by omega) (by
        rw [List.length_append, List.length_singleton]; omega)
      rw [List.cons_append, behind, copyQuoted, if_pos (by simp [isQuote]; omega),
        if_neg (by omega), if_neg isQuote, ← behind, copied, List.length_cons, List.append_assoc]
      congr 2
      omega

/-- A quoted string is copied as it was before quoting. -/
theorem copyPieces_quoted (charset : Charset) (bytes : List UInt8) {sep : UInt8}
    (separator : IsSeparator sep) (more : List UInt8) (room : bytes.length ≤ MAX_KEY_SZ + 1) :
    copyPieces charset ((doubled bytes).length + 2)
      ⟨Ascii.quote :: (doubled bytes ++ Ascii.quote :: sep :: more), (doubled bytes).length + 2, []⟩
      = .ok (some ⟨sep :: more, 0, bytes⟩) := by
  have copied := copyQuoted_doubled bytes [] ((doubled bytes).length + 1) separator.ascii.2.2.2
    more (by omega) (by simpa using room)
  rw [copyPieces, if_neg (by simp), if_neg (by simp; decide), if_neg (by simp; decide),
    if_pos (by simp)]
  dsimp only
  rw [List.drop_one, List.tail_cons, Nat.add_succ_sub_one, copied]
  change copyPieces charset ((doubled bytes).length + 1) ⟨sep :: more, _, [] ++ bytes⟩ = _
  rw [copyPieces, if_pos (by simp)]
  simp

/-- The values that `s2n` converts keep their null flag. -/
theorem convert_sqlnull {tg : ThreadGbl} {u : Mval} {sc : Scan} {r : S2n}
    (done : convert tg u sc = .ok r) : r.u.mvtype.sqlnull = u.mvtype.sqlnull := by
  unfold convert at done
  dsimp only at done
  split_ifs at done <;> obtain rfl := Except.ok.inj done <;> rfl

/-- The number of a canonical text is appended with its code. -/
theorem mval2subsc_of_s2n {env : SubscEnv} (plain : env.Plain) {text : List UInt8}
    (some : text ≠ []) {r : S2n} (converted : s2n env.tg (Mval.ofString false text) = .ok r)
    (canonical : r.u.Canonical) (exact : r.u.mvtype.numApprox = false) {code : List UInt8}
    (coded : Subscript.Code true (.number r.u.value) code) {key : GvKey} (room : key.Room code) :
    mval2subsc env r.u key true = .ok (r.u, key.grown code) := by
  have form := canonical.imp_right And.left
  have nm : r.u.mvtype.nm = true := form.elim (·.nm) (·.nm)
  rw [s2n_eq_convert env.tg ⟨rfl⟩ some] at converted
  refine mval2subsc_room plain (convert_sqlnull converted) ?_ ?_ room
  · rw [settleType, if_neg (by simp [nm])]
  · rw [subscriptBytes, exact, if_neg (by decide), (encodeNumber_code true form).unique coded]

/-- A component converts to the code it was printed from. -/
theorem convert_key_to_db_component (charset : Charset) {env : SubscEnv} (plain : env.Plain)
    {s : Subscript} {code item : List UInt8} (coded : s.Code true code) (printed : s.Printed item)
    {key : GvKey} (room : key.Room code) (small : key.top ≤ MAX_KEY_SZ + 29) {gvn : List UInt8}
    {start : Nat} {sep : UInt8} (separator : IsSeparator sep) {more : List UInt8}
    (text : gvn.drop start = item ++ sep :: more) :
    convert_key_to_db charset env gvn start (start + item.length) key =
      .ok (some (key.grown code)) := by
  have taken : (gvn.drop start).take (start + item.length - start) = item := by
    rw [text, Nat.add_sub_cancel_left, List.take_left]
  have ofNumber : ∀ ch rest (r : S2n), item = ch :: rest →
      s2n env.tg (Mval.ofString false item) = .ok r → r.u.Canonical → s = .number r.u.value →
      r.u.mvtype.numApprox = false →
      (isDigit ch ∨ ch = Ascii.minus ∨ ch = Ascii.plus ∨ ch = Ascii.dot) →
      convert_key_to_db charset env gvn start (start + item.length) key =
        .ok (some (key.grown code)) := by
    intro ch rest r headed converted canonical value exact initial
    have head : (gvn.drop start).getD 0 0 = ch := by rw [text, headed]; rfl
    rw [value] at coded
    have appended := mval2subsc_of_s2n plain (by rw [headed]; simp) converted canonical exact coded
      room
    rw [convert_key_to_db, head]
    dsimp only
    rw [if_pos initial, taken, converted]
    change (if r.u.mvtype.numApprox = true then _ else _) = _
    rw [exact, if_neg (by decide), appended]
    rfl
  have ofText : ∀ bytes, item = Ascii.quote :: (doubled bytes ++ [Ascii.quote]) →
      ((s = .null ∧ bytes = []) ∨ s = .string bytes) → bytes.length ≤ MAX_KEY_SZ + 1 →
      convert_key_to_db charset env gvn start (start + item.length) key =
        .ok (some (key.grown code)) := by
    intro bytes quoted kind short
    have appended : mval2subsc env (Mval.ofString true bytes) key true =
        .ok (Mval.ofString true bytes, key.grown code) := by
      refine mval2subsc_room plain rfl rfl ?_ room
      have approx : (Mval.ofString true bytes).mvtype.numApprox = true := rfl
      rw [subscriptBytes, if_pos approx, plain.collseq]
      exact encodeString_room coded kind room
    have source : gvn.drop start =
        Ascii.quote :: (doubled bytes ++ Ascii.quote :: sep :: more) := by
      rw [text, quoted, List.cons_append, List.append_assoc]
      rfl
    have length : start + item.length - start = (doubled bytes).length + 2 := by
      rw [quoted, Nat.add_sub_cancel_left]
      simp
    rw [convert_key_to_db, length, source, List.getD_cons_zero]
    dsimp only
    rw [if_neg (by decide), copyPieces_quoted charset bytes separator more short]
    dsimp only [bind, Except.bind]
    rw [appended]
    rfl
  cases printed with
  | null => exact ofText [] rfl (.inl ⟨rfl, rfl⟩) (by simp)
  | zero =>
    have isString : (Mval.ofString false [Ascii.zero]).IsString := ⟨rfl⟩
    obtain ⟨r, converted, canonical, value, exact⟩ := s2n_of_zero env.tg isString rfl
    exact ofNumber _ _ r rfl converted canonical (by rw [value]) exact (.inl rfl)
  | decimal d inRange =>
    have isString : (Mval.ofString false d.text).IsString := ⟨rfl⟩
    obtain ⟨r, converted, canonical, value, exact⟩ := s2n_of_text env.tg isString d inRange rfl
    obtain ⟨ch, rest, headed, _, ⟨_, _, _, kind⟩, _⟩ := numeral_start d
    refine ofNumber ch rest r headed converted canonical (by rw [value]) exact ?_
    rcases kind with minus | dot | digit
    · exact .inr (.inl minus)
    · exact .inr (.inr (.inr dot))
    · exact .inl digit
  | string bytes some =>
    refine ofText bytes rfl (.inr rfl) ?_
    cases coded
    have longer := escape_length bytes
    unfold GvKey.Room at room
    simp only [List.length_cons, MAX_GVKEY_PADDING_LEN] at room
    omega

/-! ## Whole keys -/

/-- The key that the converted components have grown. -/
def GvKey.grownBy (key : GvKey) (codes : List (List UInt8)) : GvKey := codes.foldl GvKey.grown key

theorem GvKey.grownBy_end (key : GvKey) (codes : List (List UInt8)) :
    (key.grownBy codes).end_ = key.end_ + (keyBytes codes).length ∧
      (key.grownBy codes).top = key.top := by
  induction codes generalizing key with
  | nil => exact ⟨rfl, rfl⟩
  | cons code codes ih =>
    obtain ⟨ends, top⟩ := ih (key.grown code)
    refine ⟨?_, top⟩
    rw [keyBytes_length_cons]
    change ((key.grown code).grownBy codes).end_ = _
    rw [ends]
    change key.end_ + code.length + 1 + _ = _
    omega

theorem GvKey.grownBy_base (key : GvKey) (codes : List (List UInt8)) (bytes : List UInt8)
    (holds : key.base.take key.end_ = bytes) (length : key.end_ = bytes.length) :
    (key.grownBy codes).base.take (key.grownBy codes).end_ = bytes ++ keyBytes codes := by
  induction codes generalizing key bytes with
  | nil => simpa [grownBy, keyBytes] using holds
  | cons code codes ih =>
    have size : (key.grown code).end_ = (bytes ++ (code ++ [KEY_DELIMITER])).length := by
      simp only [grown, List.length_append, List.length_singleton, length]
      omega
    have next : (key.grown code).base.take (key.grown code).end_ =
        bytes ++ (code ++ [KEY_DELIMITER]) := by
      rw [size, show (key.grown code).base =
        bytes ++ (code ++ [KEY_DELIMITER]) ++ [KEY_DELIMITER] by simp [grown, holds],
        List.take_left]
    have rest := ih (key.grown code) _ next size
    rw [keyBytes, List.flatMap_cons, ← List.append_assoc]
    exact rest

/-- The components of a text convert to the codes they were printed from. -/
theorem convertSubscripts_list (charset : Charset) {env : SubscEnv} (plain : env.Plain)
    {ss : List Subscript} {codes items : List (List UInt8)}
    (coded : List.Forall₂ (Subscript.Code true) ss codes)
    (printed : List.Forall₂ Subscript.Printed ss items) {key : GvKey}
    (room : key.end_ + (keyBytes codes).length + (MAX_GVKEY_PADDING_LEN + 1) ≤ key.top)
    (small : key.top ≤ MAX_KEY_SZ + 29) {gvn : List UInt8} {offset : Nat}
    (text : gvn.drop offset = listText items) :
    convertSubscripts charset env gvn (bounds offset items) key =
      .ok (some (key.grownBy codes)) := by
  induction coded generalizing items key offset with
  | nil =>
    cases printed
    rfl
  | @cons s code ss codes first rest ih =>
    cases printed with
    | @cons _ item _ items firstPrinted restPrinted =>
      rw [keyBytes_length_cons] at room
      have here : key.Room code := by
        unfold GvKey.Room
        omega
      obtain ⟨sep, more, separator, split, behind⟩ : ∃ sep more, IsSeparator sep ∧
          listText (item :: items) = item ++ sep :: more ∧ (items ≠ [] → more = listText items) := by
        cases items with
        | nil => exact ⟨Ascii.close_paren, [], .inr rfl, rfl, fun some => absurd rfl some⟩
        | cons next items => exact ⟨Ascii.comma, _, .inl rfl, listText_cons_cons _ _ _, fun _ => rfl⟩
      rw [split] at text
      have converted :=
        convert_key_to_db_component charset plain first firstPrinted here small separator text
      rw [bounds, convertSubscripts, converted]
      change convertSubscripts charset env gvn (bounds _ items) (key.grown code) = _
      by_cases none : items = []
      · subst none
        cases restPrinted
        cases rest
        rfl
      · have grownEnd : (key.grown code).end_ = key.end_ + code.length + 1 := rfl
        have grownTop : (key.grown code).top = key.top := rfl
        refine ih restPrinted (by rw [grownEnd, grownTop]; omega)
          (by rw [grownTop]; exact small) ?_
        rw [← behind none, Nat.add_assoc, ← List.drop_drop, text]
        simp [List.drop_append]

/-- The text of a key converts back to the key, if a hidden subscript can still be
appended. -/
theorem gvn2gds_keyText (charset : Charset) (tg : ThreadGbl) {name : List UInt8}
    (valid : ValidName name) {ss : List Subscript} {codes items : List (List UInt8)}
    (coded : List.Forall₂ (Subscript.Code true) ss codes)
    (printed : List.Forall₂ Subscript.Printed ss items)
    (encoded : ∀ s ∈ ss, Encoded charset.utf8_mode s) (few : ss.length ≤ MAX_GVSUBSCRIPTS)
    (small : (gdsBytes name codes).length ≤ MAX_KEY_SZ) :
    gvn2gds charset tg none (keyText name items) =
      if (gdsBytes name codes).length + 4 ≤ MAX_KEY_SZ then .ok (gdsBytes name codes)
      else .error .gvsuboflow := by
  have plain : (blankTarget tg none).Plain := ⟨rfl, rfl⟩
  have count := printed.length_eq
  have parsed := parse_keyText valid printed encoded (by rw [← count]; exact few)
  have size : (gdsBytes name codes).length = name.length + 1 + ((keyBytes codes).length + 1) := by
    simp only [gdsBytes, List.length_append, List.length_cons, List.length_nil]
    omega
  have top : DBKEYSIZE MAX_KEY_SZ = 1052 := rfl
  have limit : MAX_KEY_SZ = 1023 := rfl
  let key : GvKey := ⟨DBKEYSIZE MAX_KEY_SZ, name.length + 1, 0, name ++ [KEY_DELIMITER]⟩
  have named : ((keyText name items).drop 1).take (name.length + 1 - 1) = name := by
    rw [keyText, List.drop_one, List.tail_cons, Nat.add_sub_cancel, List.take_left]
  have listed : items ≠ [] → (keyText name items).drop (name.length + 2) = listText items := by
    intro some
    rw [keyText, if_neg some, List.drop_succ_cons]
    simp [List.drop_append]
  have converted : convertSubscripts charset (blankTarget tg none) (keyText name items)
      (bounds (name.length + 2) items) key = .ok (some (key.grownBy codes)) := by
    by_cases none : items = []
    · subst none
      cases printed
      cases coded
      rfl
    · refine convertSubscripts_list charset plain coded printed ?_ le_rfl (listed none)
      change name.length + 1 + _ + _ ≤ DBKEYSIZE MAX_KEY_SZ
      rw [top]
      simp only [MAX_GVKEY_PADDING_LEN]
      omega
  have ends := key.grownBy_end codes
  have holds := key.grownBy_base codes (name ++ [KEY_DELIMITER])
    (List.take_of_length_le (by simp [key])) (by simp [key])
  have hidden : CAN_APPEND_HIDDEN_SUBS (key.grownBy codes) ↔
      (gdsBytes name codes).length + 4 ≤ MAX_KEY_SZ := by
    unfold CAN_APPEND_HIDDEN_SUBS
    have keyEnd : key.end_ = name.length + 1 := rfl
    have keyTop : key.top = 1052 := rfl
    omega
  have components : (((1 :: (bounds (name.length + 2) items).map Prod.fst).zip
      ((name.length + 1) :: (bounds (name.length + 2) items).map Prod.snd)).drop (1 + 0)).take
        items.length = bounds (name.length + 2) items := by
    rw [List.zip_cons_cons, List.drop_succ_cons, List.drop_zero, List.zip_map',
      ← bounds_length (name.length + 2) items, List.take_of_length_le (by simp)]
    simp
  rw [gvn2gds, parsed]
  simp only [List.getD_cons_zero]
  rw [if_neg (by rw [top]; omega), named, components]
  have spelled : convertSubscripts charset (blankTarget tg none) (keyText name items)
      (bounds (name.length + 2) items) ⟨DBKEYSIZE MAX_KEY_SZ, name.length + 1, 0, name ++ [KEY_DELIMITER]⟩ =
        .ok (some (key.grownBy codes)) := converted
  rw [spelled]
  change (if CAN_APPEND_HIDDEN_SUBS (key.grownBy codes) then _ else _) = _
  by_cases fits : (gdsBytes name codes).length + 4 ≤ MAX_KEY_SZ
  · rw [if_pos (hidden.mpr fits), if_pos fits, holds, gdsBytes, List.append_assoc,
      List.append_assoc]
    rfl
  · rw [if_neg (mt hidden.mp fits), if_neg fits]

/-- Every coded subscript has a text. -/
theorem Subscript.Code.printed {s : Subscript} {code : List UInt8} (coded : s.Code true code) :
    ∃ item, s.Printed item := by
  cases coded with
  | null => exact ⟨_, .null⟩
  | zero => exact ⟨_, .zero⟩
  | decimal d inRange => exact ⟨_, .decimal d inRange⟩
  | string bytes some => exact ⟨_, .string bytes some⟩

theorem exists_printed {ss : List Subscript} {codes : List (List UInt8)}
    (coded : List.Forall₂ (Subscript.Code true) ss codes) :
    ∃ items, List.Forall₂ Subscript.Printed ss items := by
  induction coded with
  | nil => exact ⟨[], .nil⟩
  | cons first _ ih =>
    obtain ⟨items, printed⟩ := ih
    obtain ⟨item, firstPrinted⟩ := first.printed
    exact ⟨item :: items, .cons firstPrinted printed⟩

/-- An internal key: a name and the subscripts that `mval2subsc` appended to it
under standard null collation, without an alternative collation. -/
structure BuiltKey (name : List UInt8) (ss : List Subscript) (gds : List UInt8) : Prop where
  valid : ValidName name
  built : ∃ (env : SubscEnv) (vs : List Mval) (key result : GvKey), env.Plain ∧
    List.Forall₂ Mval.Represents vs ss ∧ key.Terminated (name ++ [KEY_DELIMITER]) ∧
    putSubscripts env true key vs = .ok result ∧ gds = result.base

theorem BuiltKey.bytes {name gds : List UInt8} {ss : List Subscript}
    (key : BuiltKey name ss gds) :
    ∃ codes, List.Forall₂ (Subscript.Code true) ss codes ∧ gds = gdsBytes name codes := by
  obtain ⟨env, vs, start, result, plain, represents, terminated, built, rfl⟩ := key.built
  obtain ⟨codes, coded, ends⟩ := putSubscripts_bytes plain represents terminated built
  refine ⟨codes, coded, ?_⟩
  rw [ends.base, gdsBytes, List.append_assoc, List.append_assoc]
  rfl

/-- What a reference can hold: as many subscripts as the parser admits, a key that
leaves room for a hidden subscript, and in UTF-8 mode strings that keep to the
encoding. -/
structure Printable (charset : Charset) (ss : List Subscript) (gds : List UInt8) : Prop where
  few : ss.length ≤ MAX_GVSUBSCRIPTS
  small : gds.length + 4 ≤ MAX_KEY_SZ
  encoded : ∀ s ∈ ss, Encoded charset.utf8_mode s

theorem NameParse.ValidName.nonzero {name : List UInt8} (valid : ValidName name) : ∀ ch ∈ name, ch ≠ 0 := by
  obtain ⟨first, rest, rfl, initial, alnum⟩ := valid.shape
  rintro ch member rfl
  rcases List.mem_cons.mp member with rfl | member
  · rcases initial with impossible | impossible <;> exact absurd impossible (by decide)
  · exact absurd (alnum 0 member) (by decide)

/-- Printing a key and parsing the text give the key back. -/
theorem BuiltKey.round_trip (charset : Charset) (tg : ThreadGbl) (isctl : UInt8 → Bool)
    {name gds : List UInt8} {ss : List Subscript} (key : BuiltKey name ss gds)
    (printable : Printable charset ss gds) :
    ∃ text, gds2gvn isctl tg none gds = .ok (some text) ∧ gvn2gds charset tg none text = .ok gds := by
  obtain ⟨codes, coded, rfl⟩ := key.bytes
  obtain ⟨items, printed⟩ := exists_printed coded
  have small : (gdsBytes name codes).length ≤ MAX_KEY_SZ := by
    have := printable.small
    omega
  refine ⟨keyText name items,
    gds2gvn_keyText isctl tg key.valid.nonzero coded printed printable.few small, ?_⟩
  rw [gvn2gds_keyText charset tg key.valid coded printed printable.encoded printable.few small,
    if_pos printable.small]

/-- A printable key is restored from its text, and no other printable key has
the same text. -/
theorem printed_keys_round_trip (charset : Charset) (tg : ThreadGbl) (isctl : UInt8 → Bool)
    {name gds : List UInt8} {ss : List Subscript} (key : BuiltKey name ss gds)
    (printable : Printable charset ss gds) :
    ∃ text, gds2gvn isctl tg none gds = .ok (some text) ∧
      gvn2gds charset tg none text = .ok gds ∧
      ∀ name' ss' gds', BuiltKey name' ss' gds' → Printable charset ss' gds' →
        gds2gvn isctl tg none gds' = .ok (some text) → gds' = gds := by
  obtain ⟨text, printed, parsed⟩ := key.round_trip charset tg isctl printable
  refine ⟨text, printed, parsed, ?_⟩
  intro name' ss' gds' other otherPrintable same
  obtain ⟨text', otherPrinted, otherParsed⟩ := other.round_trip charset tg isctl otherPrintable
  rw [same] at otherPrinted
  obtain rfl := Option.some.inj (Except.ok.inj otherPrinted)
  rw [parsed] at otherParsed
  exact (Except.ok.inj otherParsed).symm

/-- The key of `^x(1,"a")`. -/
theorem printed_keys_round_trip_one_and_letter : ∃ text,
    gds2gvn (fun _ => false) ⟨false, false⟩ none [0x78, 0, 0xbf, 0x11, 0, 0xff, 0x61, 0, 0] =
      .ok (some text) ∧
    gvn2gds ⟨true, false⟩ ⟨false, false⟩ none text =
      .ok [0x78, 0, 0xbf, 0x11, 0, 0xff, 0x61, 0, 0] := by
  let one : Mval := ⟨⟨true, true, false, false, false⟩, false, 0, 0, 1000, []⟩
  let letter : Mval := Mval.ofString false [0x61]
  let env : SubscEnv := ⟨⟨false, false⟩, true, ⟨false, none⟩⟩
  have isNumber : one.Represents (.number one.value) :=
    .number (.inl ⟨rfl, rfl, by decide⟩) rfl rfl
  have isString : letter.Represents (.string letter.str) :=
    .string (.inl ⟨rfl⟩) (by decide) (by rw [← valIscanText_iff]; decide)
  have key : BuiltKey [0x78] [.number one.value, .string letter.str]
      [0x78, 0, 0xbf, 0x11, 0, 0xff, 0x61, 0, 0] :=
    ⟨⟨0x78, [], rfl, .inr rfl, by simp⟩,
      env, [one, letter], ⟨1052, 2, 0, [0x78, 0, 0]⟩,
      ⟨1052, 8, 5, [0x78, 0, 0xbf, 0x11, 0, 0xff, 0x61, 0, 0]⟩, ⟨rfl, rfl⟩,
      .cons isNumber (.cons isString .nil), ⟨rfl, rfl⟩, by decide +kernel, rfl⟩
  have printable : Printable ⟨true, false⟩ [.number one.value, .string letter.str]
      [0x78, 0, 0xbf, 0x11, 0, 0xff, 0x61, 0, 0] := by
    refine ⟨by decide, by decide, ?_⟩
    intro s member
    simp only [List.mem_cons, List.not_mem_nil, or_false] at member
    rcases member with rfl | rfl
    · trivial
    · exact fun _ => rfl
  obtain ⟨text, printed, parsed, _⟩ :=
    printed_keys_round_trip ⟨true, false⟩ ⟨false, false⟩ (fun _ => false) key printable
  exact ⟨text, printed, parsed⟩

/-- The text of the key is accepted and gives the key back. -/
def RoundTrips (charset : Charset) (gds : List UInt8) : Prop :=
  ∃ text, gds2gvn (fun _ => false) ⟨false, false⟩ none gds = .ok (some text) ∧
    gvn2gds charset ⟨false, false⟩ none text = .ok gds

/-- The text of a key that leaves no room for a hidden subscript is refused. -/
theorem BuiltKey.not_roundTrips (charset : Charset) {name gds : List UInt8} {ss : List Subscript}
    (key : BuiltKey name ss gds) (few : ss.length ≤ MAX_GVSUBSCRIPTS)
    (encoded : ∀ s ∈ ss, Encoded charset.utf8_mode s) (small : gds.length ≤ MAX_KEY_SZ)
    (full : ¬ gds.length + 4 ≤ MAX_KEY_SZ) : ¬ RoundTrips charset gds := by
  rintro ⟨text, printed, parsed⟩
  obtain ⟨codes, coded, rfl⟩ := key.bytes
  obtain ⟨items, itemsPrinted⟩ := exists_printed coded
  rw [gds2gvn_keyText _ _ key.valid.nonzero coded itemsPrinted few small] at printed
  obtain rfl := Option.some.inj (Except.ok.inj printed)
  rw [gvn2gds_keyText charset _ key.valid coded itemsPrinted encoded few small, if_neg full]
    at parsed
  cases parsed

/-- Keys up to the maximum key size need not round trip: not with more subscripts
than the parser admits, not without room for a hidden subscript, and in UTF-8
mode not with a lone lead byte. -/
theorem printed_keys_need_not_round_trip :
    (¬ ∀ charset name ss gds, BuiltKey name ss gds → gds.length ≤ MAX_KEY_SZ →
      RoundTrips charset gds) ∧
    (¬ ∀ charset name ss gds, BuiltKey name ss gds → gds.length ≤ MAX_KEY_SZ →
      ss.length ≤ MAX_GVSUBSCRIPTS → RoundTrips charset gds) ∧
    (¬ ∀ charset name ss gds, BuiltKey name ss gds → gds.length + 4 ≤ MAX_KEY_SZ →
      ss.length ≤ MAX_GVSUBSCRIPTS → RoundTrips charset gds) := by
  let env : SubscEnv := ⟨⟨false, false⟩, true, ⟨false, none⟩⟩
  let key : GvKey := ⟨2000, 2, 0, [0x78, 0, 0]⟩
  have named : ValidName [0x78] := ⟨0x78, [], rfl, .inr rfl, by simp⟩
  refine ⟨?_, ?_, ?_⟩
  · intro all
    let one : Mval := ⟨⟨true, true, false, false, false⟩, false, 0, 0, 1000, []⟩
    have isNumber : one.Represents (.number one.value) :=
      .number (.inl ⟨rfl, rfl, by decide⟩) rfl rfl
    let gds : List UInt8 :=
      [0x78, 0] ++ ((List.replicate 32 [0xbf, 0x11, 0]).flatten ++ [0])
    have built : putSubscripts env true key (List.replicate 32 one) =
        .ok ⟨2000, 98, 95, gds⟩ := by decide +kernel
    have repeated : ∀ n, List.Forall₂ Mval.Represents (List.replicate n one)
        (List.replicate n (.number one.value)) := by
      intro n
      induction n with
      | zero => exact .nil
      | succ n ih => exact .cons isNumber ih
    obtain ⟨text, printed, parsed⟩ := all ⟨false, false⟩ [0x78] _ gds
      ⟨named, env, _, key, _, ⟨rfl, rfl⟩, repeated 32, ⟨rfl, rfl⟩, built, rfl⟩ (by decide)
    have text_eq : gds2gvn (fun _ => false) ⟨false, false⟩ none gds =
        .ok (some ([0x5e, 0x78, 0x28] ++
          ((List.replicate 31 [0x31, 0x2c]).flatten ++ [0x31, 0x29]))) := by decide +kernel
    obtain rfl := Option.some.inj (Except.ok.inj (printed.symm.trans text_eq))
    have refused : gvn2gds ⟨false, false⟩ ⟨false, false⟩ none ([0x5e, 0x78, 0x28] ++
        ((List.replicate 31 [0x31, 0x2c]).flatten ++ [0x31, 0x29])) = .error .nocanonicname := by
      decide +kernel
    rw [refused] at parsed
    cases parsed
  · intro all
    let long : Mval := Mval.ofString false (List.replicate 1018 0x61)
    have many : long.str.length = 1018 := List.length_replicate
    have isString : long.Represents (.string long.str) :=
      .string (.inl ⟨rfl⟩) (List.ne_nil_of_length_pos (by rw [many]; decide))
        (by rw [← valIscanText_iff]; decide +kernel)
    have built : putSubscripts env true key [long] =
        .ok ⟨2000, 1022, 2, [0x78, 0, 0xff] ++ (List.replicate 1018 0x61 ++ [0, 0])⟩ := by
      decide +kernel
    have longKey : BuiltKey [0x78] [.string long.str]
        ([0x78, 0, 0xff] ++ (List.replicate 1018 0x61 ++ [0, 0])) :=
      ⟨named, env, [long], key, _, ⟨rfl, rfl⟩, .cons isString .nil, ⟨rfl, rfl⟩, built, rfl⟩
    have length : ([0x78, 0, 0xff] ++ (List.replicate 1018 0x61 ++ [0, 0]) : List UInt8).length =
        1023 := by
      rw [List.length_append, List.length_append, List.length_replicate]
      rfl
    refine longKey.not_roundTrips ⟨false, false⟩ (by decide) ?_ (by rw [length]; decide)
      (by rw [length]; decide) ?_
    · intro s member
      rw [List.mem_singleton.mp member]
      exact fun impossible => by cases impossible
    · exact all _ _ _ _ longKey (by rw [length]; decide) (by decide)
  · intro all
    let lead : Mval := Mval.ofString false [0xc3]
    have isString : lead.Represents (.string lead.str) :=
      .string (.inl ⟨rfl⟩) (by decide) (by rw [← valIscanText_iff]; decide)
    have built : putSubscripts env true key [lead] =
        .ok ⟨2000, 5, 2, [0x78, 0, 0xff, 0xc3, 0, 0]⟩ := by decide +kernel
    obtain ⟨text, printed, parsed⟩ := all ⟨true, false⟩ [0x78] [.string lead.str] _
      ⟨named, env, [lead], key, _, ⟨rfl, rfl⟩, .cons isString .nil, ⟨rfl, rfl⟩, built, rfl⟩
      (by decide) (by decide)
    have text_eq : gds2gvn (fun _ => false) ⟨false, false⟩ none [0x78, 0, 0xff, 0xc3, 0, 0] =
        .ok (some [0x5e, 0x78, 0x28, 0x22, 0xc3, 0x22, 0x29]) := by decide +kernel
    obtain rfl := Option.some.inj (Except.ok.inj (printed.symm.trans text_eq))
    have refused : gvn2gds ⟨true, false⟩ ⟨false, false⟩ none
        [0x5e, 0x78, 0x28, 0x22, 0xc3, 0x22, 0x29] = .error .nocanonicname := by decide +kernel
    rw [refused] at parsed
    cases parsed

end Ydb
