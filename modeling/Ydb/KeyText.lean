import Ydb.SubscriptDecoding

/-!
# Printed keys

`gds2gvn` prints an internal key as a global reference and `gvn2gds` parses a
reference into a key. The printer quotes strings and doubles the quotes inside
them. The parser first validates the whole text with a state machine that notes
where each component starts and stops, and then converts the components.
-/

namespace Ydb

open Lib

namespace Ascii

abbrev caret : UInt8 := 0x5e
abbrev percent : UInt8 := 0x25
abbrev bar : UInt8 := 0x7c
abbrev open_bracket : UInt8 := 0x5b
abbrev close_bracket : UInt8 := 0x5d

end Ascii

def MAX_KEY_SZ : Nat := 1023
def MAX_GVSUBSCRIPTS : Nat := 31
def MAX_LVSUBSCRIPTS : Nat := 31
def MAX_ZWR_KEY_SZ : Nat := ZWR_EXP_RATIO MAX_KEY_SZ

/-- The space of a key, rounded up to a multiple of four. -/
def DBKEYSIZE (ksize : Nat) : Nat := (ksize + MAX_GVKEY_PADDING_LEN + 3) / 4 * 4

/-- The environment that both routines set up: transformation on, and a blank
target with the collation `csp`. -/
def blankTarget (tg : ThreadGbl) (csp : Option Collseq) : SubscEnv := ⟨tg, true, ⟨false, csp⟩⟩

/-! ## Printing -/

/-- Copy the name up to its delimiter: the name, and the key behind the
delimiter. -/
def formatName : List UInt8 → List UInt8 × List UInt8
  | [] => ([], [])
  | ch :: rest =>
    if ch ≠ 0 ∧ rest ≠ [] then
      let (name, rest) := formatName rest
      (ch :: name, rest)
    else ([], rest)

/-- Advance behind the next delimiter. -/
def nextSubscript : List UInt8 → List UInt8
  | [] => []
  | ch :: rest => if ch ≠ 0 ∧ rest ≠ [] then nextSubscript rest else rest

/-- Copy characters while there is room; a quote is written twice in a string. -/
def copyOut (out_top : Nat) (is_string : Bool) : List UInt8 → List UInt8 → Option (List UInt8)
  | out, [] => some out
  | out, ch :: rest =>
    if out.length ≥ out_top then none
    else
      let out := out ++ [ch]
      if is_string ∧ ch = Ascii.quote then
        if out.length ≥ out_top then none
        else copyOut out_top is_string (out ++ [ch]) rest
      else copyOut out_top is_string out rest

/-- Print one subscript. -/
def formatSubscript (isctl : UInt8 → Bool) (env : SubscEnv) (out_top : Nat) (dollarc : Bool)
    (out key : List UInt8) : Except RtsError (Option (List UInt8)) :=
  if key.getD 0 0 = SUBSCRIPT_STDCOL_NULL then .ok (some (out ++ [Ascii.quote, Ascii.quote]))
  else do
    let is_string := key.getD 0 0 = STR_SUB_PREFIX && !dollarc
    let out := if is_string then out ++ [Ascii.quote] else out
    let (work, _) ← gvsub2str isctl env key MAX_ZWR_KEY_SZ dollarc
    return do
      let out ← copyOut out_top is_string out work
      if is_string then
        if out.length ≥ out_top then none else some (out ++ [Ascii.quote])
      else some out

/-- The loop over the subscripts. Each turn passes at least one byte of the key,
which bounds the number of turns. -/
def formatSubscripts (isctl : UInt8 → Bool) (env : SubscEnv) (out_top : Nat) (dollarc : Bool) :
    Nat → List UInt8 → List UInt8 → Except RtsError (Option (List UInt8))
  | 0, _, _ => .ok none
  | turns + 1, out, key => do
    let printed ← formatSubscript isctl env out_top dollarc out key
    match printed with
    | none => return none
    | some out =>
      let key := nextSubscript key
      if out.length ≥ out_top ∨ key = [] then return none
      else if key.getD 0 0 ≠ 0 then
        formatSubscripts isctl env out_top dollarc turns (out ++ [Ascii.comma]) key
      else return some (out ++ [Ascii.close_paren])

/-- Print the key into `max_size` bytes; nothing when they do not suffice. -/
def format_targ_key (isctl : UInt8 → Bool) (env : SubscEnv) (max_size : Nat) (key : GvKey)
    (dollarc : Bool) : Except RtsError (Option (List UInt8)) :=
  let out_top := max_size - 2
  let (name, rest) := formatName (key.base.take (key.end_ + 1))
  let out := Ascii.caret :: name
  if rest.getD 0 0 = 0 then .ok (some out)
  else
    formatSubscripts isctl env out_top dollarc (key.end_ + 1) (out ++ [Ascii.open_paren]) rest

/-- Print an internal key under the collation `csp`. A string that is not a key
gives a lone null character; where the text does not fit there is no result. -/
def gds2gvn (isctl : UInt8 → Bool) (tg : ThreadGbl) (csp : Option Collseq) (gds : List UInt8) :
    Except RtsError (Option (List UInt8)) :=
  let top := DBKEYSIZE MAX_KEY_SZ
  if top < gds.length ∨ gds.length < 2 ∨ gds.getD (gds.length - 1) 0 ≠ KEY_DELIMITER ∨
      gds.getD (gds.length - 2) 0 ≠ KEY_DELIMITER then .ok (some [0])
  else
    format_targ_key isctl (blankTarget tg csp) MAX_ZWR_KEY_SZ ⟨top, gds.length - 1, 0, gds⟩ false

/-! ## Validating a reference -/

/-- The `ISALPHA_ASCII` test. -/
def isAlpha (c : UInt8) : Bool := (0x41 ≤ c && c ≤ 0x5a) || (0x61 ≤ c && c ≤ 0x7a)

/-- The `ISALNUM_ASCII` test. -/
def isAlnum (c : UInt8) : Bool := isAlpha c || isDigit c

/-- The character matches an upper case letter or its lower case. -/
def isLetter (upper c : UInt8) : Bool := c = upper || c = upper + 0x20

/-- The number of bytes that follow a lead byte: `utf8_followlen`. -/
def utf8_followlen (c : UInt8) : Int :=
  if c < 0x80 then 0
  else if 0xc2 ≤ c ∧ c ≤ 0xdf then 1
  else if 0xe0 ≤ c ∧ c ≤ 0xef then 2
  else if 0xf0 ≤ c ∧ c ≤ 0xf4 then 3
  else -1

/-- What the parser is inside of. -/
inductive NameState where
  | before_name
  | check_for_environment
  | dispatch_for_starting_component
  | in_string
  | in_number
  | expect_first_letter_of_name
  | expect_next_letter_of_name
  | in_char_func
  | end_of_processing
deriving DecidableEq, Repr

/-- The variables of the state machine. `cpt` holds the text from the current
character on. -/
structure NameParse where
  state : NameState
  cpt : List UInt8
  isrc : Nat
  subs_count : Int
  contains_env : Nat
  term : UInt8
  envpart : Nat
  instring : Bool
  point : Nat
  previous : UInt8
  start : List Nat
  stop : List Nat
deriving DecidableEq, Repr

namespace NameParse

/-- The current character. -/
def letter (p : NameParse) : UInt8 := p.cpt.getD 0 0

/-- Move to the next character, which must exist. -/
def next (p : NameParse) : Option NameParse :=
  if p.cpt.length ≤ 1 then none else some { p with cpt := p.cpt.drop 1, isrc := p.isrc + 1 }

/-- Where a component ends: at a comma, or at the terminator of its list. -/
def close (p : NameParse) : Option NameParse :=
  if p.letter = Ascii.comma then some { p with state := .dispatch_for_starting_component }
  else if p.letter = p.term then
    some { p with
      state := if p.term = Ascii.close_paren then .end_of_processing
        else .expect_first_letter_of_name }
  else none

/-- Note the end of a component, except of a second environment component. -/
def noteStop (p : NameParse) : NameParse :=
  if 0 < p.subs_count ∨ p.envpart = 1 then { p with stop := p.stop ++ [p.isrc] } else p

/-- The first letter of the name. -/
def startName (p : NameParse) : Option NameParse :=
  if p.letter = Ascii.percent ∨ isAlpha p.letter then
    some { p with start := p.start ++ [p.isrc], state := .expect_next_letter_of_name }
  else none

/-- Count a new component and note its start, except of a second environment
component. -/
def openComponent (p : NameParse) : NameParse :=
  let p := { p with point := 0, instring := false }
  let p :=
    if p.term = Ascii.close_paren then { p with subs_count := p.subs_count + 1 }
    else { p with envpart := p.envpart + 1 }
  if 0 < p.subs_count ∨ p.envpart = 1 then { p with start := p.start ++ [p.isrc] } else p

/-- Zero: a canonical number starts with zero only when it is zero. -/
def zeroComponent (p : NameParse) : Option NameParse := do
  let p ← p.next
  if p.letter = p.term then
    some { p with
      state := if p.term = Ascii.close_paren then .end_of_processing
        else .expect_first_letter_of_name
      stop := p.stop ++ [p.isrc] }
  else if p.letter = Ascii.comma then some { p with stop := p.stop ++ [p.isrc] }
  else none

/-- The first character tells the kind of the component. -/
def componentKind (p : NameParse) : Option NameParse :=
  if p.letter = Ascii.quote then some { p with instring := true, state := .in_string }
  else if p.letter = Ascii.dollar then some { p with state := .in_char_func }
  else if p.letter = Ascii.zero then p.zeroComponent
  else if p.letter = Ascii.minus ∨ p.letter = Ascii.dot ∨ isDigit p.letter then
    some { p with
      point := if p.letter = Ascii.dot then p.point + 1 else p.point
      previous := p.letter
      state := .in_number }
  else none

/-- The first letter of a component. -/
def dispatch (p : NameParse) : Option NameParse :=
  if 1 < p.envpart then none else p.openComponent.componentKind

/-- Inside a string. -/
def inString (p : NameParse) : Option NameParse :=
  if p.letter = Ascii.quote then
    let p := { p with instring := !p.instring }
    if p.instring then some p
    else if p.cpt.length ≤ 1 then none
    else if p.cpt.getD 1 0 ≠ Ascii.underscore then some p
    else do
      let p ← p.next
      let p ← p.next
      if p.letter = Ascii.dollar then some { p with state := .in_char_func } else none
  else if p.instring then some p
  else do
    let p ← p.close
    return p.noteStop

/-- Inside a number. -/
def inNumber (p : NameParse) : Option NameParse :=
  if isDigit p.letter then
    if p.previous = Ascii.minus ∧ p.letter = Ascii.zero then none
    else some { p with previous := p.letter }
  else if p.letter = Ascii.dot then
    if 1 < p.point + 1 then none
    else some { p with point := p.point + 1, previous := p.letter }
  else if 0 < p.point ∧ p.previous = Ascii.zero then none
  else do
    let q ← p.close
    return { q.noteStop with previous := p.letter }

/-- Inside the name. -/
def nextLetterOfName (p : NameParse) : Option NameParse :=
  if p.letter = Ascii.open_paren then
    some { p with
      term := Ascii.close_paren, envpart := 1, subs_count := 0
      state := .dispatch_for_starting_component
      stop := p.stop ++ [p.isrc] }
  else if isAlnum p.letter then some p
  else none

/-- The name of the function in its spellings, up to the parenthesis. -/
def charFuncName (p : NameParse) : Option NameParse := do
  let zchar := isLetter Ascii.upperZ p.letter
  let p ← if zchar then p.next else some p
  if isLetter Ascii.upperC p.letter = false then none
  else
    let p ← p.next
    let p ←
      if isLetter Ascii.upperH p.letter then do
        let p ← p.next
        if isLetter 0x41 p.letter ∨ (p.letter = Ascii.open_paren ∧ zchar) then some p else none
      else if zchar then none
      else some p
    let p ←
      if p.letter ≠ Ascii.open_paren then do
        let p ← p.next
        if isLetter 0x52 p.letter then p.next else none
      else some p
    if p.letter = Ascii.open_paren then some p else none

/-- The arguments behind the parenthesis, up to the character behind the closing
one. An argument list that does not end is refused below. -/
def charFuncArgs : List UInt8 → Nat → Option (List UInt8 × Nat)
  | [], _ => none
  | letter :: rest, isrc =>
    if isDigit letter then charFuncArgs rest (isrc + 1)
    else if letter = Ascii.comma ∨ letter = Ascii.close_paren then
      match rest with
      | [] => none
      | next :: behind =>
        if letter = Ascii.close_paren then some (rest, isrc + 1)
        else if isDigit next then charFuncArgs behind (isrc + 2)
        else none
    else none

/-- Inside $CHAR or $ZCHAR. -/
def inCharFunc (p : NameParse) : Option NameParse := do
  let p ← p.charFuncName
  let (cpt, isrc) ← charFuncArgs (p.cpt.drop 1) (p.isrc + 1)
  let p := { p with cpt := cpt, isrc := isrc }
  if p.letter = Ascii.underscore then do
    let p ← p.next
    if p.letter = Ascii.dollar then some p
    else if p.letter = Ascii.quote then some { p with instring := true, state := .in_string }
    else none
  else do
    let p ← p.close
    return { p with stop := p.stop ++ [p.isrc] }

/-- The `switch` of the loop. -/
def switch (p : NameParse) : Option NameParse :=
  match p.state with
  | .before_name =>
    if p.letter = Ascii.caret then some { p with state := .check_for_environment }
    else p.startName
  | .check_for_environment =>
    if p.letter = Ascii.percent ∨ isAlpha p.letter then p.startName
    else if p.letter = Ascii.bar ∨ p.letter = Ascii.open_bracket then
      some { p with
        contains_env := 1
        term := if p.letter = Ascii.open_bracket then Ascii.close_bracket else p.letter
        envpart := 0
        state := .dispatch_for_starting_component }
    else none
  | .dispatch_for_starting_component => p.dispatch
  | .in_string => p.inString
  | .in_number => p.inNumber
  | .expect_first_letter_of_name => p.startName
  | .expect_next_letter_of_name => p.nextLetterOfName
  | .in_char_func => p.inCharFunc
  | .end_of_processing => none

/-- Pass the current character. In UTF-8 mode the bytes that follow a lead byte
are passed with it. -/
def advance (utf8_mode : Bool) (p : NameParse) : NameParse :=
  let passed :=
    if utf8_mode = false ∨ p.letter < 0x80 then 1 else 1 + (utf8_followlen p.letter).toNat
  { p with cpt := p.cpt.drop passed, isrc := p.isrc + passed }

/-- The loop over the text; each turn passes at least one character. -/
def run (utf8_mode : Bool) (subs_max : Nat) : Nat → NameParse → Option NameParse
  | 0, p => some p
  | turns + 1, p =>
    if p.cpt ≠ [] ∧ p.subs_count ≤ subs_max then do
      let p ← p.switch
      run utf8_mode subs_max turns (p.advance utf8_mode)
    else some p

end NameParse

/-- The components of a reference. -/
structure NameComponents where
  subscripts : Nat
  start : List Nat
  stop : List Nat
  contains_env : Nat
deriving DecidableEq, Repr

/-- Parse a global reference as text. -/
def parse_gv_name_and_subscripts (utf8_mode : Bool) (src : List UInt8) : Option NameComponents := do
  let subs_max := if src.getD 0 0 = Ascii.caret then MAX_GVSUBSCRIPTS else MAX_LVSUBSCRIPTS
  let p ← NameParse.run utf8_mode subs_max src.length
    ⟨.before_name, src, 0, -1, 0, 0, 0, false, 0, 0, [], []⟩
  if p.state = .end_of_processing then
    some ⟨p.subs_count.toNat, p.start, p.stop, p.contains_env⟩
  else if p.state = .expect_next_letter_of_name then
    some ⟨0, p.start, p.stop ++ [p.isrc], p.contains_env⟩
  else none

/-! ## Converting the components -/

/-- A byte, or nothing outside the byte range. -/
def op_fnzchar (ch : Int) : List UInt8 := if 0 ≤ ch ∧ ch < 256 then [UInt8.ofNat ch.toNat] else []

/-- The `UTF8_WCTOMB` conversion; nothing for an invalid code point. -/
def utf8_wctomb (codepoint : Nat) : List UInt8 :=
  let trail (shift : Nat) : UInt8 := UInt8.ofNat (codepoint / 2 ^ shift % 64 + 0x80)
  if codepoint ≤ 0x7f then [UInt8.ofNat codepoint]
  else if codepoint ≤ 0x7ff then [UInt8.ofNat (codepoint / 2 ^ 6 + 0xc0), trail 0]
  else if codepoint ≤ 0xffff then
    if (0xd800 ≤ codepoint ∧ codepoint ≤ 0xdfff) ∨
        (0xfdd0 ≤ codepoint ∧ (codepoint ≤ 0xfdef ∨ codepoint % 0x10000 / 2 = 0x7fff)) then []
    else [UInt8.ofNat (codepoint / 2 ^ 12 + 0xe0), trail 6, trail 0]
  else if codepoint ≤ 0x10ffff ∧ codepoint % 0x10000 / 2 ≠ 0x7fff then
    [UInt8.ofNat (codepoint / 2 ^ 18 + 0xf0), trail 12, trail 6, trail 0]
  else []

/-- $CHAR of one number. -/
def op_fnchar (badchar_inhibit : Bool) (ch : Int) : Except RtsError (List UInt8) :=
  if 0 ≤ ch then
    let bytes := utf8_wctomb ch.toNat
    if bytes = [] ∧ badchar_inhibit = false then .error .invdlrcval else .ok bytes
  else .ok []

/-- `STRTOUL` of the digits at the start, capped at the largest unsigned long, as
a signed word. -/
def strtoul (text : List UInt8) : Int :=
  let num := ((text.takeWhile isDigit).map digitVal).foldl (fun value d => value * 10 + d) 0
  let word : Int := ((min num (2 ^ 64 - 1)) % 2 ^ 32 : Nat)
  if word < 2 ^ 31 then word else word - 2 ^ 32

/-- Process-wide settings that the conversion reads. -/
structure Charset where
  /-- `gtm_utf8_mode`. -/
  utf8_mode : Bool
  badchar_inhibit : Bool
deriving DecidableEq, Repr

/-- A component as it is scanned: the text from the current character on, how
many characters remain of the component, and the string so far. -/
structure Copying where
  src : List UInt8
  left : Nat
  str : List UInt8
deriving DecidableEq, Repr

/-- Copy a quoted string without the quotes that double others. -/
def copyQuoted : List UInt8 → Nat → List UInt8 → Option Copying
  | ch :: next :: rest, left, str =>
    if 0 < left ∧ ¬ (ch = Ascii.quote ∧ next ≠ Ascii.quote) then
      if str.length = MAX_KEY_SZ + 1 then none
      else if ch = Ascii.quote then copyQuoted rest (left - 2) (str ++ [Ascii.quote])
      else copyQuoted (next :: rest) (left - 1) (str ++ [ch])
    else some ⟨ch :: next :: rest, left, str⟩
  | src, left, str => some ⟨src, left, str⟩

/-- The arguments of `$CHAR` or `$ZCHAR`, each appended as its characters. -/
def copyArguments (charset : Charset) (is_zchar : Bool) :
    Nat → Copying → Except RtsError (Option Copying)
  | 0, c => .ok (some c)
  | turns + 1, c => do
    let num := strtoul c.src
    let bytes ←
      if is_zchar = false ∧ charset.utf8_mode then op_fnchar charset.badchar_inhibit num
      else .ok (op_fnzchar num)
    if c.str.length + bytes.length > MAX_KEY_SZ + 1 then return none
    else
      let argument := c.src.takeWhile (fun ch => ch ≠ Ascii.comma ∧ ch ≠ Ascii.close_paren)
      let behind := c.src.drop argument.length
      let c : Copying :=
        ⟨behind.drop 1, c.left - (argument.length + 1), c.str ++ bytes⟩
      if behind.getD 0 0 = Ascii.comma then copyArguments charset is_zchar turns c
      else return some c

/-- The pieces of a string component, joined by underscores. -/
def copyPieces (charset : Charset) : Nat → Copying → Except RtsError (Option Copying)
  | 0, c => .ok (some c)
  | turns + 1, c =>
    if c.left = 0 then .ok (some c)
    else if c.src.getD 0 0 = Ascii.underscore then
      copyPieces charset turns ⟨c.src.drop 1, c.left - 1, c.str⟩
    else if c.src.getD 0 0 = Ascii.dollar then do
      let fnname := (c.src.drop 1).takeWhile (fun ch => ch ≠ Ascii.open_paren)
      let is_zchar := (fnname.take 3).map (fun ch => if 0x61 ≤ ch ∧ ch ≤ 0x7a then ch - 0x20 else ch)
        = [Ascii.upperZ, Ascii.upperC, Ascii.upperH]
      let head := fnname.length + 2
      let copied ← copyArguments charset is_zchar c.src.length
        ⟨c.src.drop head, c.left - head, c.str⟩
      match copied with
      | none => return none
      | some c => copyPieces charset turns c
    else if c.src.getD 0 0 = Ascii.quote then
      match copyQuoted (c.src.drop 1) (c.left - 1) c.str with
      | none => .ok none
      | some c => copyPieces charset turns ⟨c.src.drop 1, c.left - 1, c.str⟩
    else
      -- Validation admits no other character here.
      .ok none

/-- A string value, with the mark that it is no canonical number or without. -/
def Mval.ofString (approx : Bool) (str : List UInt8) : Mval :=
  ⟨⟨false, false, true, approx, false⟩, false, 0, 0, 0, str⟩

/-- Convert the component between `start` and `stop` and append it to the key;
nothing when it is not canonical or too long. -/
def convert_key_to_db (charset : Charset) (env : SubscEnv) (gvn : List UInt8) (start stop : Nat)
    (gvkey : GvKey) : Except RtsError (Option GvKey) :=
  let src := gvn.drop start
  let ch := src.getD 0 0
  if isDigit ch ∨ ch = Ascii.minus ∨ ch = Ascii.plus ∨ ch = Ascii.dot then do
    let number ← s2n env.tg (Mval.ofString false (src.take (stop - start)))
    if number.u.mvtype.numApprox then return none
    else
      let (_, gvkey) ← mval2subsc env number.u gvkey true
      return some gvkey
  else do
    let copied ← copyPieces charset (stop - start) ⟨src, stop - start, []⟩
    match copied with
    | none => return none
    | some c =>
      -- The mark keeps `mval2subsc` from reading the string as a number.
      let (_, gvkey) ← mval2subsc env (Mval.ofString true c.str) gvkey true
      return some gvkey

/-- Convert the components from index `i` on. -/
def convertSubscripts (charset : Charset) (env : SubscEnv) (gvn : List UInt8) :
    List (Nat × Nat) → GvKey → Except RtsError (Option GvKey)
  | [], gvkey => .ok (some gvkey)
  | (start, stop) :: rest, gvkey => do
    let converted ← convert_key_to_db charset env gvn start stop gvkey
    match converted with
    | none => return none
    | some gvkey => convertSubscripts charset env gvn rest gvkey

/-- Whether hidden subscripts fit. -/
def CAN_APPEND_HIDDEN_SUBS (key : GvKey) : Prop := key.end_ + 5 ≤ MAX_KEY_SZ ∧ key.end_ + 5 ≤ key.top

instance (key : GvKey) : Decidable ( CAN_APPEND_HIDDEN_SUBS key) :=
  inferInstanceAs (Decidable (_ ∧ _))

/-- Parse a reference under the collation `csp` into the bytes of a key. -/
def gvn2gds (charset : Charset) (tg : ThreadGbl) (csp : Option Collseq) (gvn : List UInt8) :
    Except RtsError (List UInt8) :=
  match parse_gv_name_and_subscripts charset.utf8_mode gvn with
  | none => .error .nocanonicname
  | some parsed =>
    let top := DBKEYSIZE MAX_KEY_SZ
    let start := parsed.start.getD parsed.contains_env 0
    let stop := parsed.stop.getD parsed.contains_env 0
    if stop - start > top then .error .gvsuboflow
    else do
      let name := (gvn.drop start).take (stop - start)
      let gvkey : GvKey := ⟨top, name.length + 1, 0, name ++ [KEY_DELIMITER]⟩
      let first := 1 + parsed.contains_env
      let bounds := ((parsed.start.zip parsed.stop).drop first).take parsed.subscripts
      let converted ← convertSubscripts charset (blankTarget tg csp) gvn bounds gvkey
      match converted with
      | none => .error .gvsuboflow
      | some gvkey =>
        if CAN_APPEND_HIDDEN_SUBS gvkey then
          return gvkey.base.take gvkey.end_ ++ [KEY_DELIMITER]
        else .error .gvsuboflow

end Ydb
