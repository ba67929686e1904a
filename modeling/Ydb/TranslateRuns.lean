import Ydb.TranslateCalls
import Ydb.TranslateResults

/-!
# Runs of translation calls

What is kept for the next call are the tables of the strings that stood at the noted addresses at the time
they were noted. As long as strings do not change at their address between collections, a call that finds its
strings noted since the last collection finds its tables. So a call translates in every state, unless its
source is refused, its search string has a number of characters for which no table can be made, or the
counter of collections has come back to its value and other strings are taken for the noted ones.
-/

namespace Ydb.Translate

open Lib

/-! ## Strings known again -/

/-- What stood in memory: after so many collections, at an address, over a length. -/
abbrev Memory := Nat → Nat → Nat → List UInt8

/-- A string stands at its address as long as it is used. -/
def StringArg.Stable (arg : StringArg) (mem : Memory) (first last : Nat) : Prop :=
  ∀ g, first ≤ g → g ≤ last → mem g (arg.addr g) arg.bytes.length = arg.bytes

/-- Something holds of the strings that were noted, as they stood then. -/
def LastStrings.Holds (last : LastStrings) (mem : Memory) (now : Nat)
    (property : List UInt8 → List UInt8 → Prop) : Prop :=
  ∀ g, last.time = some g → g ≤ now ∧
    property (mem g last.prev_srch.addr last.prev_srch.len) (mem g last.prev_rplc.addr last.prev_rplc.len)

/-- The strings of a call are taken for the noted ones, although those were noted before the last collection: the
counter has come back to its value, as it can when the pool was expanded. -/
def LastStrings.Mistaken (last : LastStrings) (pool : Pool) (srch rplc : StringArg) : Prop :=
  last.repeats pool srch rplc = true ∧ last.time ≠ some pool.collections

instance (last : LastStrings) (pool : Pool) (srch rplc : StringArg) : Decidable (last.Mistaken pool srch rplc) :=
  inferInstanceAs (Decidable (_ ∧ _))

variable {mem : Memory} {last : LastStrings} {pool pool' : Pool} {now now' : Nat}
variable {property : List UInt8 → List UInt8 → Prop} {srch rplc : StringArg}

/-- What was noted stays noted. -/
theorem LastStrings.Holds.later (holds : last.Holds mem now property) (le : now ≤ now') :
    last.Holds mem now' property := by
  intro g noted
  obtain ⟨before, here⟩ := holds g noted
  exact ⟨Nat.le_trans before le, here⟩

/-- Strings that are noted where they stand. -/
theorem LastStrings.holds_of
    (stableS : mem pool.collections (srch.addr pool.collections) srch.bytes.length = srch.bytes)
    (stableR : mem pool.collections (rplc.addr pool.collections) rplc.bytes.length = rplc.bytes)
    (here : property srch.bytes rplc.bytes) (le : pool.collections ≤ now) :
    (LastStrings.of pool srch rplc).Holds mem now property := by
  intro g noted
  obtain rfl := Option.some.inj noted
  refine ⟨le, ?_⟩
  have bytesS : mem pool.collections (srch.str pool).addr (srch.str pool).len = srch.bytes := stableS
  have bytesR : mem pool.collections (rplc.str pool).addr (rplc.str pool).len = rplc.bytes := stableR
  unfold LastStrings.of
  rw [bytesS, bytesR]
  exact here

/-- Strings that are known again, and not by mistake, are the strings that were noted. -/
theorem LastStrings.Holds.repeated (holds : last.Holds mem now property)
    (right : ¬ last.Mistaken pool srch rplc)
    (stableS : mem pool.collections (srch.addr pool.collections) srch.bytes.length = srch.bytes)
    (stableR : mem pool.collections (rplc.addr pool.collections) rplc.bytes.length = rplc.bytes)
    (repeats : last.repeats pool srch rplc = true) : property srch.bytes rplc.bytes := by
  have noted : last.time = some pool.collections := by
    by_contra other
    exact right ⟨repeats, other⟩
  obtain ⟨-, here⟩ := holds _ noted
  unfold LastStrings.repeats at repeats
  simp only [Bool.and_eq_true, decide_eq_true_eq] at repeats
  obtain ⟨⟨-, sameS⟩, sameR⟩ := repeats
  rw [← sameS, ← sameR] at here
  have bytesS : mem pool.collections (srch.str pool).addr (srch.str pool).len = srch.bytes := stableS
  have bytesR : mem pool.collections (rplc.str pool).addr (rplc.str pool).len = rplc.bytes := stableR
  rwa [bytesS, bytesR] at here

/-! ## The tables that are kept -/

/-- The `assertpro` of `create_utf8_xlate_table` for the space that `op_fntranslate` has. -/
def Asserted (srch : List UInt8) : Prop :=
  utf8_len srch ≤ xlateLen srch ∧ NUM_CHARS * SIZEOF_int4 ≤ xlateLen srch

instance (srch : List UInt8) : Decidable (Asserted srch) :=
  inferInstanceAs (Decidable (_ ∧ _))

/-- What holds of the tables that are kept. -/
structure Kept (mem : Memory) (p : Process) : Prop where
  bytes : p.fnz.last.Holds mem p.pool.collections fun srch rplc => p.fnz.xlate = create_byte_xlate_table srch rplc
  chars : p.fn.last.Holds mem p.pool.collections fun srch rplc =>
    (singleByte srch && singleByte rplc) = false ∧ Asserted srch ∧
      (needsMore srch = false → ∃ xlate, create_utf8_xlate_table srch rplc (xlateLen srch) xlate =
        some ⟨p.fn.xlate_array, p.fn.xlate_hash⟩)

/-- At first nothing is noted. -/
theorem kept_start : Kept mem .start := by
  constructor
  · intro _ noted
    cases noted
  · intro _ noted
    cases noted

theorem Kept.later {p : Process} (kept : Kept mem p) (le : p.pool.collections ≤ pool.collections) :
    Kept mem { p with pool := pool } :=
  ⟨kept.bytes.later le, kept.chars.later le⟩

/-- Collections are not undone. -/
theorem le_ensure (room : Space) (pool : Pool) :
    pool.collections ≤ (ENSURE_STP_FREE_SPACE room pool).collections := by
  cases room with
  | available => exact Nat.le_refl _
  | collected => exact Nat.le_succ _
  | expanded => exact Nat.le_succ _

theorem finish_process (src rplc : StringArg) (tables : Tables) (p : Process) :
    (finish src rplc tables p).2 = p := by
  unfold finish
  split <;> rfl

theorem created_of_asserted {str rplc : List UInt8} (asserted : Asserted str) (xlate : UInt8 → Int) :
    ∃ tables, create_utf8_xlate_table str rplc (xlateLen str) xlate = some tables := by
  exact ⟨_, if_pos asserted⟩

theorem not_created {str rplc : List UInt8} (failed : ¬ Asserted str) (xlate : UInt8 → Int) :
    create_utf8_xlate_table str rplc (xlateLen str) xlate = none := if_neg failed

theorem Asserted.of_created {str rplc : List UInt8} {xlate : UInt8 → Int} {tables : Tables}
    (created : create_utf8_xlate_table str rplc (xlateLen str) xlate = some tables) : Asserted str := by
  by_contra failed
  rw [not_created failed] at created
  cases created

section Calls

variable {utf8_mode badchar_inhibit : Bool} {room room' : Space} {space : UInt8 → Int} {src : StringArg}
variable {p : Process}

/-- The process of a byte call. -/
theorem op_fnztranslate_kept (kept : Kept mem p)
    (stableS : srch.Stable mem p.pool.collections
      (op_fnztranslate utf8_mode badchar_inhibit room src srch rplc p).2.pool.collections)
    (stableR : rplc.Stable mem p.pool.collections
      (op_fnztranslate utf8_mode badchar_inhibit room src srch rplc p).2.pool.collections) :
    p.pool.collections ≤ (op_fnztranslate utf8_mode badchar_inhibit room src srch rplc p).2.pool.collections ∧
      Kept mem (op_fnztranslate utf8_mode badchar_inhibit room src srch rplc p).2 := by
  unfold op_fnztranslate at stableS stableR ⊢
  by_cases bad : (utf8_mode && src.bad badchar_inhibit) = true
  · rw [if_pos bad]
    exact ⟨Nat.le_refl _, kept⟩
  · rw [if_neg bad] at stableS stableR ⊢
    have le := le_ensure room p.pool
    refine ⟨le, ?_, kept.chars.later le⟩
    dsimp only
    by_cases again : (!(decide (room = .available) && p.fnz.last.repeats p.pool srch rplc)) = true
    · rw [if_pos again]
      exact LastStrings.holds_of (stableS _ (Nat.le_refl _) le) (stableR _ (Nat.le_refl _) le) rfl le
    · rw [if_neg again]
      exact kept.bytes.later le

/-- The result of a byte call. -/
theorem op_fnztranslate_result (kept : Kept mem p) (right : ¬ p.fnz.last.Mistaken p.pool srch rplc)
    (stableS : mem p.pool.collections (srch.addr p.pool.collections) srch.bytes.length = srch.bytes)
    (stableR : mem p.pool.collections (rplc.addr p.pool.collections) rplc.bytes.length = rplc.bytes) :
    (op_fnztranslate utf8_mode badchar_inhibit room src srch rplc p).1 =
      if utf8_mode && src.bad badchar_inhibit then .error .badchar
      else .result (translate srch.bytes rplc.bytes src.bytes) := by
  unfold op_fnztranslate
  by_cases bad : (utf8_mode && src.bad badchar_inhibit) = true
  · rw [if_pos bad, if_pos bad]
  · rw [if_neg bad, if_neg bad]
    dsimp only
    rw [← byte_table_translates]
    by_cases again : (!(decide (room = .available) && p.fnz.last.repeats p.pool srch rplc)) = true
    · rw [if_pos again]
    · rw [if_neg again]
      have repeats : p.fnz.last.repeats p.pool srch rplc = true := by
        simp only [Bool.not_eq_true', Bool.not_eq_false, Bool.and_eq_true] at again
        exact again.2
      rw [kept.bytes.repeated right stableS stableR repeats]

/-- The process of a call for characters. -/
theorem op_fntranslate_kept (kept : Kept mem p)
    (stableS : srch.Stable mem p.pool.collections
      (op_fntranslate badchar_inhibit room room' space src srch rplc p).2.pool.collections)
    (stableR : rplc.Stable mem p.pool.collections
      (op_fntranslate badchar_inhibit room room' space src srch rplc p).2.pool.collections) :
    p.pool.collections ≤ (op_fntranslate badchar_inhibit room room' space src srch rplc p).2.pool.collections ∧
      Kept mem (op_fntranslate badchar_inhibit room room' space src srch rplc p).2 := by
  have le := le_ensure room p.pool
  have le' := le_ensure room' (ENSURE_STP_FREE_SPACE room p.pool)
  unfold op_fntranslate at stableS stableR ⊢
  by_cases bad : (src.bad badchar_inhibit || srch.bad badchar_inhibit || rplc.bad badchar_inhibit) = true
  · rw [if_pos bad]
    exact ⟨Nat.le_refl _, kept⟩
  · rw [if_neg bad] at stableS stableR ⊢
    by_cases single : (singleByte srch.bytes && singleByte rplc.bytes) = true
    · rw [if_pos single] at stableS stableR ⊢
      by_cases again : (!p.fn.last.repeats p.pool srch rplc) = true
      · rw [if_pos again] at stableS stableR ⊢
        exact op_fnztranslate_kept kept stableS stableR
      · rw [if_neg again]
        exact ⟨Nat.le_refl _, kept⟩
    · rw [if_neg single] at stableS stableR ⊢
      dsimp only at stableS stableR ⊢
      by_cases again : (!(!needsMore srch.bytes && p.fn.last.repeats
          (ENSURE_STP_FREE_SPACE room p.pool) srch rplc)) = true
      · rw [if_pos again] at stableS stableR ⊢
        generalize (if needsMore srch.bytes then space else p.fn.xlate_array) = xlate at *
        cases created : create_utf8_xlate_table srch.bytes rplc.bytes (xlateLen srch.bytes) xlate with
        | none => exact ⟨le, kept.later le⟩
        | some tables =>
          rw [created] at stableS stableR
          dsimp only at stableS stableR ⊢
          rw [finish_process] at stableS stableR ⊢
          refine ⟨Nat.le_trans le le', kept.bytes.later (Nat.le_trans le le'), ?_⟩
          apply LastStrings.holds_of (stableS _ le le') (stableR _ le le') _ le'
          refine ⟨Bool.eq_false_iff.mpr single, .of_created created, ?_⟩
          intro small
          rw [small]
          exact ⟨xlate, created⟩
      · rw [if_neg again, finish_process]
        exact ⟨Nat.le_trans le le', kept.later (Nat.le_trans le le')⟩

/-- The characters of the source, translated. -/
def translateChars (src srch rplc : List UInt8) : List UInt8 :=
  (translate (chars srch) (chars rplc) (chars src)).flatten

theorem finish_result {tables : Tables} (translates : tables.Translates (chars srch.bytes) (chars rplc.bytes))
    (validX : valid_utf_string src.bytes = true) (validR : valid_utf_string rplc.bytes = true)
    (fits : (translateChars src.bytes srch.bytes rplc.bytes).length ≤ MAX_STRLEN) (p : Process) :
    (finish src rplc tables p).1 = .result (translateChars src.bytes srch.bytes rplc.bytes) := by
  unfold finish
  rw [op_fntranslate_common_translates translates validX validR rplc.bounded fits]
  rfl

theorem not_bad {arg : StringArg} (valid : valid_utf_string arg.bytes = true) :
    arg.bad badchar_inhibit = false := by
  unfold StringArg.bad
  rw [valid, Bool.not_true, Bool.and_false]

theorem translate_single_bytes {src srch rplc : List UInt8} (validX : valid_utf_string src = true)
    (validS : valid_utf_string srch = true) (validR : valid_utf_string rplc = true)
    (singleS : singleByte srch = true) (singleR : singleByte rplc = true) :
    translate srch rplc src = translateChars src srch rplc := by
  have result := translate_singles (isChar_of_valid validX) (isChar_of_valid validS)
    (single_chars validS (of_decide_eq_true singleS)) (single_chars validR (of_decide_eq_true singleR))
  rwa [flatten_chars, flatten_chars, flatten_chars] at result

theorem op_fntranslate_gcols
    (good : (src.bad badchar_inhibit || srch.bad badchar_inhibit || rplc.bad badchar_inhibit) = false)
    (several : (singleByte srch.bytes && singleByte rplc.bytes) = false) :
    (ENSURE_STP_FREE_SPACE room p.pool).collections ≤
      (op_fntranslate badchar_inhibit room room' space src srch rplc p).2.pool.collections := by
  have le' := le_ensure room' (ENSURE_STP_FREE_SPACE room p.pool)
  unfold op_fntranslate
  rw [good, several, if_neg Bool.false_ne_true, if_neg Bool.false_ne_true]
  dsimp only
  split
  · split
    · exact Nat.le_refl _
    · rw [finish_process]
      exact le'
  · rw [finish_process]
    exact le'

/-- A call of `op_fntranslate` takes its strings for others. -/
def Mistakes (room : Space) (srch rplc : StringArg) (p : Process) : Prop :=
  if singleByte srch.bytes && singleByte rplc.bytes then
    p.fn.last.Mistaken p.pool srch rplc ∨ p.fnz.last.Mistaken p.pool srch rplc
  else p.fn.last.Mistaken (ENSURE_STP_FREE_SPACE room p.pool) srch rplc

instance : Decidable (Mistakes room srch rplc p) :=
  inferInstanceAs (Decidable (if singleByte srch.bytes && singleByte rplc.bytes then
    p.fn.last.Mistaken p.pool srch rplc ∨ p.fnz.last.Mistaken p.pool srch rplc
  else p.fn.last.Mistaken (ENSURE_STP_FREE_SPACE room p.pool) srch rplc))

/-- The result of a call for characters. -/
theorem op_fntranslate_result (kept : Kept mem p) (right : ¬ Mistakes room srch rplc p)
    (stableS : srch.Stable mem p.pool.collections
      (op_fntranslate badchar_inhibit room room' space src srch rplc p).2.pool.collections)
    (stableR : rplc.Stable mem p.pool.collections
      (op_fntranslate badchar_inhibit room room' space src srch rplc p).2.pool.collections)
    (validX : valid_utf_string src.bytes = true) (validS : valid_utf_string srch.bytes = true)
    (validR : valid_utf_string rplc.bytes = true)
    (fits : (translateChars src.bytes srch.bytes rplc.bytes).length ≤ MAX_STRLEN) :
    (op_fntranslate badchar_inhibit room room' space src srch rplc p).1 =
      if singleByte srch.bytes && singleByte rplc.bytes ∨ Asserted srch.bytes then
        .result (translateChars src.bytes srch.bytes rplc.bytes)
      else .assertpro := by
  have good : (src.bad badchar_inhibit || srch.bad badchar_inhibit || rplc.bad badchar_inhibit) = false := by
    rw [not_bad validX, not_bad validS, not_bad validR]
    rfl
  have le := (op_fntranslate_kept kept stableS stableR).1
  by_cases single : (singleByte srch.bytes && singleByte rplc.bytes) = true
  · have stableS₀ := stableS _ (Nat.le_refl _) le
    have stableR₀ := stableR _ (Nat.le_refl _) le
    unfold Mistakes at right
    rw [if_pos single, not_or] at right
    unfold op_fntranslate
    rw [good, if_neg Bool.false_ne_true]
    obtain ⟨singleS, singleR⟩ := Bool.and_eq_true_iff.mp single
    rw [if_pos single]
    have fresh : p.fn.last.repeats p.pool srch rplc = false := by
      by_contra repeats
      have noted := kept.chars.repeated right.1 stableS₀ stableR₀ (Bool.eq_true_of_not_eq_false repeats)
      rw [noted.1] at single
      cases single
    have checked : ({ src with utf_len := true } : StringArg).bad badchar_inhibit = false :=
      not_bad validX
    rw [if_pos (by rw [fresh]; rfl), op_fnztranslate_result kept right.2 stableS₀ stableR₀,
      checked, Bool.and_false, if_neg Bool.false_ne_true,
      translate_single_bytes validX validS validR singleS singleR, if_pos (.inl single)]
  · have reached := @op_fntranslate_gcols srch rplc badchar_inhibit room room' space src p good
      (Bool.eq_false_iff.mpr single)
    have ensured := le_ensure room p.pool
    have stableS₁ := stableS _ ensured reached
    have stableR₁ := stableR _ ensured reached
    unfold Mistakes at right
    rw [if_neg single] at right
    unfold op_fntranslate
    rw [good, if_neg Bool.false_ne_true, if_neg single]
    dsimp only
    by_cases again : (!(!needsMore srch.bytes && p.fn.last.repeats
        (ENSURE_STP_FREE_SPACE room p.pool) srch rplc)) = true
    · rw [if_pos again]
      by_cases asserted : Asserted srch.bytes
      · obtain ⟨tables, created⟩ := created_of_asserted asserted
          (if needsMore srch.bytes then space else p.fn.xlate_array)
        rw [created, if_pos (.inr asserted)]
        dsimp only
        exact finish_result (created_translates validS validR created) validX validR fits _
      · rw [not_created asserted, if_neg (not_or.mpr ⟨single, asserted⟩)]
    · rw [if_neg again]
      simp only [Bool.not_eq_true', Bool.not_eq_false, Bool.and_eq_true] at again
      obtain ⟨_, asserted, cached⟩ := kept.chars.repeated right stableS₁ stableR₁ again.2
      obtain ⟨xlate, created⟩ := cached again.1
      rw [if_pos (.inr asserted)]
      exact finish_result (created_translates validS validR created) validX validR fits _

end Calls

/-! ## Every call in every state -/

/-- What a call ought to give. -/
def Call.translation (call : Call) (utf8_mode : Bool) : List UInt8 :=
  if call.function.characters utf8_mode then
    translateChars call.src.bytes call.srch.bytes call.rplc.bytes
  else translate call.srch.bytes call.rplc.bytes call.src.bytes

/-- Where characters are translated the three strings are well formed. -/
def Call.Valid (call : Call) (utf8_mode : Bool) : Prop :=
  call.function.characters utf8_mode = true →
    valid_utf_string call.src.bytes = true ∧ valid_utf_string call.srch.bytes = true ∧
      valid_utf_string call.rplc.bytes = true

/-- A search string for which `op_fntranslate` has a table that is large enough. -/
def TableFits (srch rplc : List UInt8) : Prop :=
  if singleByte srch then singleByte rplc = true ∨ srch.length ≤ 1024
  else utf8_len srch ≤ 256 ∨ 1024 ≤ utf8_len srch

/-- When a call gives its translation. -/
def Call.Served (call : Call) (utf8_mode : Bool) : Prop :=
  if call.function.characters utf8_mode then
    call.literals = true ∨ TableFits call.srch.bytes call.rplc.bytes
  else
    utf8_mode = true → call.badchar_inhibit = true ∨ call.src.utf_len = true ∨
      valid_utf_string call.src.bytes = true

/-- The strings of a call stand still between collections. -/
def Call.Stable (call : Call) (utf8_mode : Bool) (mem : Memory) (p : Process) : Prop :=
  call.srch.Stable mem p.pool.collections (call.run utf8_mode p).2.pool.collections ∧
    call.rplc.Stable mem p.pool.collections (call.run utf8_mode p).2.pool.collections

/-- The states of a process that translates, with collections and expansions of the pool in between. -/
inductive Reachable (utf8_mode : Bool) (mem : Memory) : Process → Prop
  | start : Reachable utf8_mode mem .start
  | collect {p : Process} (room : Space) (before : Reachable utf8_mode mem p) :
      Reachable utf8_mode mem { p with pool := ENSURE_STP_FREE_SPACE room p.pool }
  | call {p : Process} (call : Call) (before : Reachable utf8_mode mem p)
      (stable : call.Stable utf8_mode mem p) (lives : (call.run utf8_mode p).1 ≠ .assertpro) :
      Reachable utf8_mode mem (call.run utf8_mode p).2

theorem asserted_iff {srch rplc : List UInt8} :
    (singleByte srch && singleByte rplc) = true ∨ Asserted srch ↔ TableFits srch rplc := by
  unfold TableFits Asserted xlateLen needsMore NUM_CHARS SIZEOF_int4
  by_cases single : singleByte srch = true
  · have same : srch.length = utf8_len srch := of_decide_eq_true single
    rw [if_pos single, single, Bool.true_and, Bool.not_true, Bool.false_and, if_neg Bool.false_ne_true,
      same]
    constructor
    · rintro (both | ⟨less, _⟩)
      · exact .inl both
      · exact .inr less
    · rintro (both | less)
      · exact .inl both
      · exact .inr ⟨less, Nat.le_refl _⟩
  · have many : singleByte srch = false := Bool.eq_false_iff.mpr single
    rw [if_neg single, many, Bool.false_and, Bool.not_false, Bool.true_and]
    by_cases large : 256 < utf8_len srch
    · rw [if_pos (decide_eq_true large)]
      constructor
      · rintro (both | ⟨_, enough⟩)
        · cases both
        · exact .inr enough
      · rintro (less | enough)
        · omega
        · exact .inr ⟨Nat.le_refl _, enough⟩
    · rw [if_neg fun decided => large (of_decide_eq_true decided)]
      constructor
      · intro _
        exact .inl (Nat.le_of_not_lt large)
      · intro _
        exact .inr ⟨by omega, Nat.le_refl _⟩

variable {utf8_mode : Bool} {p : Process} {call : Call}

theorem Call.atRunTime_kept (kept : Kept mem p)
    (stableS : call.srch.Stable mem p.pool.collections (call.atRunTime utf8_mode p).2.pool.collections)
    (stableR : call.rplc.Stable mem p.pool.collections (call.atRunTime utf8_mode p).2.pool.collections) :
    p.pool.collections ≤ (call.atRunTime utf8_mode p).2.pool.collections ∧ Kept mem (call.atRunTime utf8_mode p).2 := by
  unfold Call.atRunTime at stableS stableR ⊢
  by_cases characters : call.function.characters utf8_mode = true
  · rw [if_pos characters] at stableS stableR ⊢
    exact op_fntranslate_kept kept stableS stableR
  · rw [if_neg characters] at stableS stableR ⊢
    exact op_fnztranslate_kept kept stableS stableR

/-- What one call preserves. -/
theorem Call.run_kept (kept : Kept mem p) (stable : call.Stable utf8_mode mem p) :
    p.pool.collections ≤ (call.run utf8_mode p).2.pool.collections ∧ Kept mem (call.run utf8_mode p).2 := by
  obtain ⟨stableS, stableR⟩ := stable
  have le := le_ensure call.room p.pool
  have le' := Nat.le_trans le (le_ensure call.room' (ENSURE_STP_FREE_SPACE call.room p.pool))
  unfold Call.run at stableS stableR ⊢
  by_cases literals : call.literals = true
  · rw [if_pos literals] at stableS stableR ⊢
    cases compiled : f_translate utf8_mode call.function call.space call.srch.bytes call.rplc.bytes with
    | none => exact ⟨Nat.le_refl _, kept⟩
    | some made =>
      rw [compiled] at stableS stableR
      cases made with
      | runTime => exact Call.atRunTime_kept kept stableS stableR
      | bytes xlate =>
        dsimp only
        unfold op_fnztranslate_fast
        split
        · exact ⟨Nat.le_refl _, kept⟩
        · exact ⟨le, kept.later le⟩
      | chars tables =>
        dsimp only
        unfold op_fntranslate_fast
        split
        · exact ⟨Nat.le_refl _, kept⟩
        · rw [finish_process]
          exact ⟨le', kept.later le'⟩
  · rw [if_neg literals] at stableS stableR ⊢
    exact Call.atRunTime_kept kept stableS stableR

/-- What is kept in every state. -/
theorem Reachable.kept (reachable : Reachable utf8_mode mem p) : Kept mem p := by
  induction reachable with
  | start => exact kept_start
  | collect room before ih => exact ih.later (le_ensure room _)
  | call call before stable lives ih =>
    exact (Call.run_kept ih stable).2

theorem refused_iff {str : List UInt8} {arg : StringArg} {badchar_inhibit : Bool} :
    (if utf8_mode && arg.bad badchar_inhibit then .error .badchar else .result str) = Outcome.result str ↔
      (utf8_mode = true → badchar_inhibit = true ∨ arg.utf_len = true ∨
        valid_utf_string arg.bytes = true) := by
  unfold StringArg.bad
  cases utf8_mode with
  | false => simp
  | true =>
    cases badchar_inhibit with
    | true => simp
    | false =>
      cases arg.utf_len with
      | true => simp
      | false =>
        cases valid_utf_string arg.bytes with
        | true => simp
        | false => simp

/-- A call at run time takes its strings for others, for which tables were made before. -/
def Call.Mistaken (call : Call) (utf8_mode : Bool) (p : Process) : Prop :=
  call.literals = false ∧
    if call.function.characters utf8_mode then Mistakes call.room call.srch call.rplc p
    else p.fnz.last.Mistaken p.pool call.srch call.rplc

instance : Decidable (call.Mistaken utf8_mode p) :=
  inferInstanceAs (Decidable (call.literals = false ∧
    if call.function.characters utf8_mode then Mistakes call.room call.srch call.rplc p
    else p.fnz.last.Mistaken p.pool call.srch call.rplc))

/-- The result of a call at run time. -/
theorem Call.atRunTime_result (kept : Kept mem p) (runTime : call.literals = false)
    (right : ¬ call.Mistaken utf8_mode p)
    (stableS : call.srch.Stable mem p.pool.collections (call.atRunTime utf8_mode p).2.pool.collections)
    (stableR : call.rplc.Stable mem p.pool.collections (call.atRunTime utf8_mode p).2.pool.collections)
    (valid : call.Valid utf8_mode) (fits : (call.translation utf8_mode).length ≤ MAX_STRLEN) :
    (call.atRunTime utf8_mode p).1 = .result (call.translation utf8_mode) ↔
      if call.function.characters utf8_mode then TableFits call.srch.bytes call.rplc.bytes
      else utf8_mode = true → call.badchar_inhibit = true ∨ call.src.utf_len = true ∨
        valid_utf_string call.src.bytes = true := by
  unfold Call.atRunTime at stableS stableR ⊢
  unfold Call.translation at fits ⊢
  unfold Call.Mistaken at right
  have right := fun mistaken => right ⟨runTime, mistaken⟩
  by_cases characters : call.function.characters utf8_mode = true
  · obtain ⟨validX, validS, validR⟩ := valid characters
    rw [if_pos characters] at right stableS stableR fits
    rw [if_pos characters, if_pos characters, if_pos characters, ← asserted_iff,
      op_fntranslate_result kept right stableS stableR validX validS validR fits]
    by_cases served : (singleByte call.srch.bytes && singleByte call.rplc.bytes) = true ∨
        Asserted call.srch.bytes
    · rw [if_pos served]
      exact ⟨fun _ => served, fun _ => rfl⟩
    · rw [if_neg served]
      constructor
      · intro equal
        cases equal
      · intro here
        exact absurd here served
  · rw [if_neg characters] at right stableS stableR
    have le := (op_fnztranslate_kept kept stableS stableR).1
    rw [if_neg characters, if_neg characters, if_neg characters,
      op_fnztranslate_result kept right (stableS _ (Nat.le_refl _) le)
        (stableR _ (Nat.le_refl _) le)]
    exact refused_iff

/-- A call at run time with strings that stay where they are. -/
def Call.plain (function : FunctionName) (src srch rplc : List UInt8) (boundedX : src.length ≤ MAX_STRLEN)
    (boundedS : srch.length ≤ MAX_STRLEN) (boundedR : rplc.length ≤ MAX_STRLEN) : Call where
  function := function
  literals := false
  badchar_inhibit := false
  src := ⟨src, boundedX, fun _ => 1, false⟩
  srch := ⟨srch, boundedS, fun _ => 2, false⟩
  rplc := ⟨rplc, boundedR, fun _ => 3, false⟩
  room := .available
  room' := .available
  space := fun _ => 0

/-- To replace an accented letter. -/
def unaccented (src : List UInt8) (bounded : src.length ≤ MAX_STRLEN) : Call :=
  .plain .TRANSLATE src [0xc3, 0xa9] [0x65] bounded (by decide) (by decide)

/-- A call with one character, two bytes long. -/
def eAcute : Call := unaccented [0xc3, 0xa9] (by decide)

/-- A call with a letter before it. -/
def aEAcute : Call := unaccented [0x61, 0xc3, 0xa9] (by decide)

/-- The process when the pool was expanded and a first call has made the tables. -/
def unaccentedOnce : Process := (eAcute.run true { Process.start with pool := Process.start.pool.expand_stp }).2

/-- A search string of 300 characters of two bytes. -/
def manyAccented : Call :=
  .plain .TRANSLATE [0x61] (List.replicate 300 [0xc3, 0xa9]).flatten [] (by decide) (by decide +kernel)
    (by decide)

/-- To replace `a`, or `c`, by `b`. -/
def byLetter (letter : UInt8) : Call :=
  .plain .ZTRANSLATE [0x61] [letter] [0x62] (by decide) (show 1 ≤ MAX_STRLEN by decide) (by decide)

/-- To replace an accented letter, or `ab`, in `a`. -/
def byTwo (search : List UInt8) (bounded : search.length ≤ MAX_STRLEN) : Call :=
  .plain .TRANSLATE [0x61] search [0x65] (by decide) bounded (by decide)

/-- The process when a call was made and the pool was expanded. -/
def behindExpansion (call : Call) (utf8_mode : Bool) : Process :=
  { (call.run utf8_mode .start).2 with pool := (call.run utf8_mode .start).2.pool.expand_stp }

/-- Behind an expansion the counter is zero again. Where the search string was, another of the same length now
stands: `$ZTRANSLATE` translates by the table of the old one, and `$TRANSLATE` does not set its destination. -/
theorem mistaken_are_not_translated :
    (byLetter 0x63).Served false ∧ (byLetter 0x63).translation false = [0x61] ∧
      ((byLetter 0x63).run false (behindExpansion (byLetter 0x61) false)).1 = .result [0x62] ∧
      (byTwo [0x61, 0x62] (by decide)).Served true ∧
      ((byTwo [0x61, 0x62] (by decide)).run true (behindExpansion (byTwo [0xc3, 0xa9] (by decide)) true)).1 =
        .unset := by
  refine ⟨fun utf8 => Bool.noConfusion utf8, ?_, ?_, .inr (.inl ?_), ?_⟩ <;> decide +kernel

end Ydb.Translate
