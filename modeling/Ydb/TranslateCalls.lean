import Ydb.TranslateTables

/-!
# Calls of the translation functions

At run time both functions keep the tables of their last search and replacement strings, which they know
again by the addresses and lengths and by the counter of garbage collections of the string pool, which
begins anew when the pool is expanded. Where the two strings are literals, the compiler makes the tables.
-/

namespace Ydb.Translate

/-! ## The string pool -/

/-- The string pool: its counter of collections, of 32 bits, and how many collections there were in all. The second
is not in the source: it is the time by which addresses are given. -/
structure Pool where
  gcols : UInt32
  collections : Nat

/-- Whether space is available, and if not, whether the collection also expands the pool. -/
inductive Space where
  | available
  | collected
  | expanded
deriving DecidableEq

/-- A collection. -/
def Pool.stp_gcol (pool : Pool) : Pool := ⟨pool.gcols + 1, pool.collections + 1⟩

/-- A collection that finds too little: `stp_init` makes a new pool, with the counter at zero. -/
def Pool.expand_stp (pool : Pool) : Pool := ⟨0, pool.collections + 1⟩

/-- The pool behind `ENSURE_STP_FREE_SPACE`. -/
def ENSURE_STP_FREE_SPACE : Space → Pool → Pool
  | .available, pool => pool
  | .collected, pool => pool.stp_gcol
  | .expanded, pool => pool.expand_stp

/-! ## Arguments and the process -/

/-- A string: its bytes, where they are after so many garbage collections, and whether its length in
characters is known. -/
structure StringArg where
  bytes : List UInt8
  bounded : bytes.length ≤ MAX_STRLEN
  addr : Nat → Nat
  utf_len : Bool

/-- Where a string is. -/
structure Mstr where
  addr : Nat
  len : Nat
deriving DecidableEq

/-- The string as it stands in a pool. -/
def StringArg.str (arg : StringArg) (pool : Pool) : Mstr := ⟨arg.addr pool.collections, arg.bytes.length⟩

/-- Whether every character is a byte. -/
def singleByte (str : List UInt8) : Bool := str.length = utf8_len str

/-- The strings a table was made for, and the counter then. The time is not in the source: nothing that the
functions do depends on it. -/
structure LastStrings where
  prev_gcols : UInt32
  prev_srch : Mstr
  prev_rplc : Mstr
  time : Option Nat

/-- No strings. -/
def LastStrings.none : LastStrings := ⟨-1, ⟨0, 0⟩, ⟨0, 0⟩, .none⟩

/-- The strings of a call are noted. -/
def LastStrings.of (pool : Pool) (srch rplc : StringArg) : LastStrings :=
  ⟨pool.gcols, srch.str pool, rplc.str pool, some pool.collections⟩

/-- Whether the strings of a call are taken for the noted ones. -/
def LastStrings.repeats (last : LastStrings) (pool : Pool) (srch rplc : StringArg) : Bool :=
  last.prev_gcols = pool.gcols && srch.str pool = last.prev_srch && rplc.str pool = last.prev_rplc

/-- The static variables of `op_fnztranslate`. -/
structure FnzStatics where
  xlate : UInt8 → Int
  last : LastStrings

/-- Those of `op_fntranslate`. -/
structure FnStatics where
  xlate_hash : Option (Nat → Option Int)
  xlate_array : UInt8 → Int
  last : LastStrings

/-- What the functions keep between calls. -/
structure Process where
  pool : Pool
  fnz : FnzStatics
  fn : FnStatics

/-- A process at its beginning. -/
def Process.start : Process :=
  ⟨⟨0, 0⟩, ⟨fun _ => 0, .none⟩, ⟨Option.none, fun _ => 0, .none⟩⟩

/-- How a call ends: with a result, without one, with an error, or with a failed `assertpro`. -/
inductive Outcome where
  | result (str : List UInt8)
  | unset
  | error (kind : TranslateError)
  | assertpro
deriving DecidableEq, Repr

/-! ## Run-time entries -/

/-- Whether `MV_FORCE_LEN` finds a malformed character. -/
def StringArg.bad (arg : StringArg) (badchar_inhibit : Bool) : Bool :=
  !badchar_inhibit && !arg.utf_len && !valid_utf_string arg.bytes

/-- `op_fnztranslate`. -/
def op_fnztranslate (utf8_mode badchar_inhibit : Bool) (room : Space) (src srch rplc : StringArg) (p : Process) :
    Outcome × Process :=
  if utf8_mode && src.bad badchar_inhibit then (.error .badchar, p)
  else
    let fnz :=
      if !(room = .available && p.fnz.last.repeats p.pool srch rplc) then
        ⟨create_byte_xlate_table srch.bytes rplc.bytes, .of p.pool srch rplc⟩
      else p.fnz
    (.result (op_fnztranslate_common src.bytes fnz.xlate),
      { p with pool := ENSURE_STP_FREE_SPACE room p.pool, fnz := fnz })

/-- The end of the entries for characters. -/
def finish (src rplc : StringArg) (tables : Tables) (p : Process) : Outcome × Process :=
  match op_fntranslate_common src.bytes rplc.bytes tables with
  | .ok str => (.result str, p)
  | .error kind => (.error kind, p)

/-- Whether the table needs more than the static array. -/
def needsMore (srch : List UInt8) : Bool := !singleByte srch && NUM_CHARS < utf8_len srch

/-- The length that is given for the table. -/
def xlateLen (srch : List UInt8) : Nat := if needsMore srch then utf8_len srch else SIZEOF_int4 * NUM_CHARS

/-- `op_fntranslate`; `space` is what newly allocated memory holds. -/
def op_fntranslate (badchar_inhibit : Bool) (room room' : Space) (space : UInt8 → Int)
    (src srch rplc : StringArg) (p : Process) : Outcome × Process :=
  if src.bad badchar_inhibit || srch.bad badchar_inhibit || rplc.bad badchar_inhibit then
    (.error .badchar, p)
  else if singleByte srch.bytes && singleByte rplc.bytes then
    if !p.fn.last.repeats p.pool srch rplc then
      op_fnztranslate true badchar_inhibit room { src with utf_len := true } srch rplc p
    else (.unset, p)
  else
    let pool := ENSURE_STP_FREE_SPACE room p.pool
    if !(!needsMore srch.bytes && p.fn.last.repeats pool srch rplc) then
      let xlate := if needsMore srch.bytes then space else p.fn.xlate_array
      match create_utf8_xlate_table srch.bytes rplc.bytes (xlateLen srch.bytes) xlate with
      | none => (.assertpro, { p with pool := pool })
      | some tables =>
        let xlate_array := if needsMore srch.bytes then p.fn.xlate_array else tables.xlate
        finish src rplc tables
          { p with
            pool := ENSURE_STP_FREE_SPACE room' pool
            fn := ⟨tables.hash, xlate_array, .of pool srch rplc⟩ }
    else
      finish src rplc ⟨p.fn.xlate_array, p.fn.xlate_hash⟩
        { p with pool := ENSURE_STP_FREE_SPACE room' pool }

/-! ## Tables made by the compiler -/

/-- The two functions. -/
inductive FunctionName where
  | TRANSLATE
  | ZTRANSLATE
deriving DecidableEq, Repr

/-- Whether characters are translated: in M mode the compiler takes `$ZTRANSLATE` for `$TRANSLATE`. -/
def FunctionName.characters (function : FunctionName) (utf8_mode : Bool) : Bool :=
  utf8_mode && function = .TRANSLATE

/-- What the compiler makes of a call with literals. -/
inductive Compiled where
  | runTime
  | bytes (xlate : UInt8 → Int)
  | chars (tables : Tables)

/-- `f_translate` for literals; nothing when the `assertpro` fails. -/
def f_translate (utf8_mode : Bool) (function : FunctionName) (space : UInt8 → Int)
    (srch rplc : List UInt8) : Option Compiled :=
  if !function.characters utf8_mode then some (.bytes (create_byte_xlate_table srch rplc))
  else if valid_utf_string srch && valid_utf_string rplc then
    (create_utf8_xlate_table srch rplc (max (utf8_len srch) (NUM_CHARS * SIZEOF_int4)) space).map .chars
  else some .runTime

/-- `op_fnztranslate_fast`. -/
def op_fnztranslate_fast (utf8_mode badchar_inhibit : Bool) (room : Space) (src : StringArg) (xlate : UInt8 → Int)
    (p : Process) : Outcome × Process :=
  if utf8_mode && src.bad badchar_inhibit then (.error .badchar, p)
  else
    (.result (op_fnztranslate_common src.bytes xlate),
      { p with pool := ENSURE_STP_FREE_SPACE room p.pool })

/-- `op_fntranslate_fast`. -/
def op_fntranslate_fast (badchar_inhibit : Bool) (room room' : Space) (src rplc : StringArg) (tables : Tables)
    (p : Process) : Outcome × Process :=
  if src.bad badchar_inhibit || rplc.bad badchar_inhibit then (.error .badchar, p)
  else
    finish src rplc tables
      { p with pool := ENSURE_STP_FREE_SPACE room' (ENSURE_STP_FREE_SPACE room p.pool) }

/-! ## A call -/

/-- A call of one of the functions, with what the pool will have for it. -/
structure Call where
  function : FunctionName
  literals : Bool
  badchar_inhibit : Bool
  src : StringArg
  srch : StringArg
  rplc : StringArg
  room : Space
  room' : Space
  space : UInt8 → Int

/-- A call through the run-time entries. -/
def Call.atRunTime (call : Call) (utf8_mode : Bool) (p : Process) : Outcome × Process :=
  if call.function.characters utf8_mode then
    op_fntranslate call.badchar_inhibit call.room call.room' call.space call.src call.srch call.rplc p
  else op_fnztranslate utf8_mode call.badchar_inhibit call.room call.src call.srch call.rplc p

/-- A call: of literals through the tables of the compiler. -/
def Call.run (call : Call) (utf8_mode : Bool) (p : Process) : Outcome × Process :=
  if call.literals then
    match f_translate utf8_mode call.function call.space call.srch.bytes call.rplc.bytes with
    | none => (.assertpro, p)
    | some .runTime => call.atRunTime utf8_mode p
    | some (.bytes xlate) =>
      op_fnztranslate_fast utf8_mode call.badchar_inhibit call.room call.src xlate p
    | some (.chars tables) =>
      op_fntranslate_fast call.badchar_inhibit call.room call.room' call.src call.rplc tables p
  else call.atRunTime utf8_mode p

end Ydb.Translate
