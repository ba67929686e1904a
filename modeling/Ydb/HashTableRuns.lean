import Ydb.HashTableUpdates

/-!
# Runs of the hash table routines

In every table that a program reaches by additions and deletions, with a new
array at hand or not whenever the table wants to move, the entries represent the
map of the keys added and not since deleted. Moves to a larger, equal or smaller
array, spare or new, do not change the map.
-/

namespace Ydb

open Lib

variable {κ : Type} {K : KeyType κ} {ht_sizes : List Nat} {table : HashTable κ}
  {m : κ → Option UInt64}

/-! ## Moving -/

theorem HashTable.cleared_represents (table : HashTable κ) (base : Nat) {size : Nat}
    (prime : size.Prime) (bound : size < 2 ^ 31) :
    (table.cleared K base size).Represents K fun _ => none := by
  have empty : ∀ s < size, (table.cleared K base size).slots K s = .empty :=
    fun _ _ => KeyType.slot_empty.mpr K.empty_zeroed
  refine ⟨prime, bound, searchable_of_empty empty, ?_, ?_, ?_, ?_⟩
  · intro key value
    constructor
    · nofun
    · rintro ⟨s, inTable, live⟩
      rw [empty s inTable] at live
      cases live
  · symm
    apply countSlots_eq_zero
    intro s inTable
    rw [empty s inTable]
    rfl
  · symm
    apply countSlots_eq_zero
    intro s inTable
    rw [empty s inTable]
    rfl
  · intro i _
    rfl

/-- The entries of the first `n` slots are in the new table. -/
structure Moved (K : KeyType κ) (table newtable : HashTable κ) (n : Nat) (table' : HashTable κ) :
    Prop where
  represents : ∃ m', table'.Represents K m' ∧
    ∀ key value, m' key = some value ↔ Holds n (table.slots K) key value
  count : table'.count = countSlots slotLive n (table.slots K)
  frame : newtable.SameFrame table'

theorem holds_succ {n : Nat} {slots : Nat → Slot κ UInt64} {key : κ} {value : UInt64} :
    Holds (n + 1) slots key value ↔ Holds n slots key value ∨ slots n = .live key value := by
  constructor
  · rintro ⟨s, below, live⟩
    rcases Nat.lt_succ_iff_lt_or_eq.mp below with earlier | rfl
    · exact .inl ⟨s, earlier, live⟩
    · exact .inr live
  · rintro (⟨s, below, live⟩ | live)
    · exact ⟨s, Nat.lt_succ_of_lt below, live⟩
    · exact ⟨n, Nat.lt_succ_self n, live⟩

theorem HashTable.SameFrame.size {table table' : HashTable κ} (same : table.SameFrame table') :
    table'.size = table.size := by rw [same]

theorem HashTable.SameFrame.trans {t₁ t₂ t₃ : HashTable κ} (first : t₁.SameFrame t₂)
    (second : t₂.SameFrame t₃) : t₁.SameFrame t₃ := by
  rw [HashTable.SameFrame] at *
  rw [second, first]

/-- One entry is moved, if it is live. -/
theorem Moved.step [DecidableEq κ] {newtable table' : HashTable κ} {n : Nat}
    (rep : table.Represents K m) (below : n < table.size) (room : table.count < newtable.size)
    (moved : Moved K table newtable n table') :
    ∃ table'', (if K.HTENT_VALID (table.entries n) then
        (addEntry K table' (table.entries n).key (table.entries n).value).map Added.table
      else some table') = some table'' ∧ Moved K table newtable (n + 1) table'' := by
  obtain ⟨m', rep', holds'⟩ := moved.represents
  by_cases valid : K.HTENT_VALID (table.entries n) = true
  · have live := KeyType.valid_iff.mp valid
    generalize (table.entries n).key = key, (table.entries n).value = value at live ⊢
    have new : m' key = none := by
      apply rep'.absent
      intro value' held
      obtain ⟨s, earlier, there⟩ := (holds' key value').mp ((rep'.holds key value').mpr held)
      have same := rep.searchable.single s (earlier.trans below) n below key value' value there live
      omega
    have fewer : countSlots slotLive n (table.slots K) < newtable.size := by
      have upTo : countSlots slotLive n (table.slots K) ≤
          countSlots slotLive table.size (table.slots K) :=
        List.Sublist.countP_le (List.range_sublist.mpr below.le)
      rw [← rep.count] at upTo
      omega
    obtain ⟨a, done, added⟩ := rep'.addEntry_spec (KeyType.storable_of_slot live)
      (by rw [moved.count, moved.frame.size]; exact fewer)
    refine ⟨a.table, by rw [if_pos valid, done]; rfl, ?_, ?_, moved.frame.trans added.frame⟩
    · have represents := added.represents
      rw [new] at represents
      refine ⟨_, represents, ?_⟩
      intro key' value'
      rw [holds_succ, ← holds', HashTable.slots_apply, live]
      by_cases same : key' = key
      · subst same
        simp [new]
      · simp [same, Ne.symm same]
    · rw [added.count, new, moved.count, countSlots_succ, HashTable.slots_apply, live]
      rfl
  · have notLive : ∀ key value, table.slots K n ≠ .live key value := by
      intro key value live
      obtain ⟨entry, _⟩ := KeyType.slot_live.mp live
      apply valid
      apply KeyType.valid_iff.mpr
      rw [HashTable.slots_apply] at live
      rw [live, entry]
    refine ⟨table', if_neg valid, ⟨m', rep', ?_⟩, ?_, moved.frame⟩
    · intro key value
      rw [holds_succ, holds']
      simp [notLive]
    · rw [moved.count, countSlots_succ]
      cases here : table.slots K n with
      | live key value => exact absurd here (notLive key value)
      | empty => rfl
      | deleted => rfl

/-- All entries in use fit in a larger new table. -/
theorem moveEntries_spec [DecidableEq κ] {newtable : HashTable κ} (rep : table.Represents K m)
    (fresh : newtable.Represents K fun _ => none) (room : table.count < newtable.size) :
    ∃ table', moveEntries K table newtable = some table' ∧ table'.Represents K m ∧
      table'.count = table.count ∧ newtable.SameFrame table' := by
  have start : Moved K table newtable 0 newtable := by
    refine ⟨⟨_, fresh, ?_⟩, ?_, rfl⟩
    · intro key value
      constructor
      · nofun
      · rintro ⟨s, impossible, _⟩
        omega
    · rw [fresh.count]
      apply countSlots_eq_zero
      intro s inTable
      cases here : newtable.slots K s with
      | live key value => cases (fresh.holds key value).mpr ⟨s, inTable, here⟩
      | empty => rfl
      | deleted => rfl
  have run : ∀ n ≤ table.size, ∃ table', (List.range n).foldlM (fun newtable tabent =>
      if K.HTENT_VALID (table.entries tabent) then
        (addEntry K newtable (table.entries tabent).key (table.entries tabent).value).map Added.table
      else some newtable) newtable = some table' ∧ Moved K table newtable n table' := by
    intro n atMost
    induction n with
    | zero => exact ⟨newtable, rfl, start⟩
    | succ n ih =>
      obtain ⟨table', done, moved⟩ := ih (by omega)
      obtain ⟨table'', done', moved'⟩ := moved.step rep (by omega) room
      refine ⟨table'', ?_, moved'⟩
      rw [List.range_succ, List.foldlM_append, done]
      simpa using done'
  have same : ∀ {m'}, (∀ key value, m' key = some value ↔
      Holds table.size (table.slots K) key value) → m' = m := by
    intro m' holds'
    funext key
    apply Option.ext
    intro value
    rw [holds', rep.holds]
  rw [moveEntries]
  by_cases entries : 0 < table.count
  · obtain ⟨table', done, moved⟩ := run table.size le_rfl
    obtain ⟨m', rep', holds'⟩ := moved.represents
    refine ⟨table', by rw [if_pos entries, done], same holds' ▸ rep', ?_, moved.frame⟩
    rw [moved.count, rep.count]
  · refine ⟨newtable, if_neg entries, ?_, ?_, rfl⟩
    · have noneThere : m = fun _ => none := by
        funext key
        apply rep.absent
        rintro value ⟨s, inTable, live⟩
        have isLive : slotLive (table.slots K s) = true := by
          rw [live]
          rfl
        exact entries (rep.count ▸ countSlots_pos slotLive inTable isLive)
      rw [noneThere]
      exact fresh
    · rw [start.count, show table.count = 0 by omega]
      rfl

/-- What holds in every table. A table that cannot grow may fill up; it then raises
an error at the next addition. -/
structure HashTable.Sound (K : KeyType κ) (ht_sizes : List Nat) (table : HashTable κ)
    (m : κ → Option UInt64) : Prop where
  represents : table.Represents K m
  size : table.size ∈ ht_sizes
  initial : table.initial_size ∈ ht_sizes ∧ table.initial_size ≠ 0
  trigger : table.exp_trigger_size ≤ table.size
  room : table.count < table.size ∨ table.size ≤ table.exp_trigger_size
  spare : table.spare_base ≠ some table.base

/-- A move that failed: only the spare array may be lost. -/
structure MoveFailed (table table' : HashTable κ) : Prop where
  same : table' = { table with
    spare_base := table'.spare_base
    spare_base_size := table'.spare_base_size }
  spare : table'.spare_base ≠ some table'.base

/-- Only the spare array is taken, and it is not the table's own. -/
theorem takeSpare_spec (spare : table.spare_base ≠ some table.base) (cur_ht_size : Nat) :
    MoveFailed table (takeSpare table cur_ht_size).2 ∧
      (takeSpare table cur_ht_size).1 ≠ some table.base := by
  rw [takeSpare]
  split
  · exact ⟨⟨rfl, spare⟩, nofun⟩
  · split
    · exact ⟨⟨rfl, nofun⟩, spare⟩
    · split
      · exact ⟨⟨rfl, nofun⟩, nofun⟩
      · exact ⟨⟨rfl, spare⟩, nofun⟩

theorem MoveFailed.represents {table' : HashTable κ} (failed : MoveFailed table table')
    (rep : table.Represents K m) : table'.Represents K m := by
  rw [failed.same]
  exact { rep with }

theorem MoveFailed.sound {table' : HashTable κ} (failed : MoveFailed table table')
    (sound : table.Sound K ht_sizes m) : table'.Sound K ht_sizes m := by
  refine ⟨failed.represents sound.represents, ?_, ?_, ?_, ?_, failed.spare⟩
  all_goals rw [failed.same]
  · exact sound.size
  · exact sound.initial
  · exact sound.trigger
  · exact sound.room

/-- A move either leaves the table in its array or brings all entries to an array of
the new size. -/
theorem EXPAND_HASHTAB_spec [DecidableEq κ] (sizes : IsHtSizes ht_sizes)
    (sound : table.Sound K ht_sizes m) {malloc : Option Nat} (fresh : malloc ≠ some table.base)
    {minsize : Nat}
    (fits : newSize ht_sizes minsize (some table) ≠ 0 →
      newSize ht_sizes minsize (some table) ∈ ht_sizes ∧
        table.count < newSize ht_sizes minsize (some table)) :
    ∃ table', EXPAND_HASHTAB K ht_sizes malloc table minsize = some table' ∧
      ((table'.base = table.base ∧ MoveFailed table table') ∨
        (table'.base ≠ table.base ∧ table'.Sound K ht_sizes m ∧ table'.count = table.count ∧
          table'.size = newSize ht_sizes minsize (some table))) := by
  generalize chosen : newSize ht_sizes minsize (some table) = cur_ht_size at fits
  rw [EXPAND_HASHTAB, INIT_HASHTAB_INTL]
  dsimp only
  rw [chosen]
  by_cases overflow : cur_ht_size = 0
  · rw [if_pos overflow]
    exact ⟨table, rfl, .inl ⟨rfl, rfl, sound.spare⟩⟩
  · rw [if_neg overflow]
    obtain ⟨member, room⟩ := fits overflow
    obtain ⟨failed, notBase⟩ := takeSpare_spec sound.spare cur_ht_size
    generalize takeSpare table cur_ht_size = taken at failed notBase
    obtain ⟨spare, old⟩ := taken
    dsimp only at failed notBase ⊢
    have sameBase : old.base = table.base := by rw [failed.same]
    cases found : spare.or malloc with
    | none =>
      exact ⟨old, rfl, .inl ⟨sameBase, failed⟩⟩
    | some base =>
      have otherBase : base ≠ table.base := by
        rintro rfl
        cases spare with
        | none => exact fresh found
        | some s => exact notBase found
      have prime := sizes.prime member overflow
      have bound := (sizes.bounds member overflow).2
      have cleared : HashTable.Represents K { table.cleared K base cur_ht_size with
          initial_size := old.initial_size
          dont_compact := old.dont_compact
          dont_keep_spare_table := old.dont_keep_spare_table } fun _ => none :=
        { table.cleared_represents base prime bound with }
      have sameCount : old.count = table.count := by rw [failed.same]
      have sameInitial : old.initial_size = table.initial_size := by rw [failed.same]
      obtain ⟨moved, done, represents, count, frame⟩ :=
        moveEntries_spec (failed.represents sound.represents) cleared (by rw [sameCount]; exact room)
      have movedBase : moved.base = base := by rw [frame]; rfl
      have movedSize : moved.size = cur_ht_size := by rw [frame]; rfl
      have movedInitial : moved.initial_size = table.initial_size := by rw [frame]; exact sameInitial
      have movedTrigger : moved.exp_trigger_size = cur_ht_size * HT_LOAD_FACTOR / 100 := by
        rw [frame]
        rfl
      have soundMoved : ∀ spare_base spare_base_size, spare_base ≠ some base →
          HashTable.Sound K ht_sizes { moved with
            spare_base := spare_base
            spare_base_size := spare_base_size } m := by
        intro spare_base spare_base_size notNew
        refine ⟨{ represents with }, ?_, ?_, ?_, .inl ?_, ?_⟩
        · exact movedSize ▸ member
        · exact movedInitial ▸ sound.initial
        · rw [movedSize, movedTrigger, HT_LOAD_FACTOR]
          omega
        · rw [count, sameCount, movedSize]
          exact room
        · exact movedBase ▸ notNew
      dsimp only [Option.map_some, Option.getD_some]
      rw [done]
      simp only [Option.bind_eq_bind, Option.bind_some]
      split
      · refine ⟨_, rfl, .inr ⟨movedBase ▸ otherBase, soundMoved _ _ nofun, ?_, movedSize⟩⟩
        exact count.trans sameCount
      · refine ⟨_, rfl, .inr ⟨movedBase ▸ otherBase, soundMoved _ _ ?_, ?_, movedSize⟩⟩
        · rw [sameBase]
          intro same
          exact otherBase (Option.some.inj same).symm
        · exact count.trans sameCount

/-! ## Each routine -/

/-- A new table is sound and empty. -/
theorem INIT_HASHTAB_spec (sizes : IsHtSizes ht_sizes) {malloc : Option Nat} {slot : HashTable κ}
    {minsize : Nat} {dont_compact dont_keep_spare_table : Bool}
    (done : INIT_HASHTAB K ht_sizes malloc slot minsize dont_compact dont_keep_spare_table =
      some table) : table.Sound K ht_sizes fun _ => none := by
  by_cases nonzero : sizeFor minsize ht_sizes = 0
  · simp [INIT_HASHTAB, INIT_HASHTAB_INTL, newSize, nonzero] at done
  · cases malloc with
    | none => simp [INIT_HASHTAB, INIT_HASHTAB_INTL, newSize, nonzero] at done
    | some base =>
      simp only [INIT_HASHTAB, INIT_HASHTAB_INTL, newSize, nonzero, if_false, ne_eq,
        not_false_eq_true, if_true, Option.map_some, Option.some.injEq] at done
      subst done
      obtain ⟨member, _⟩ := sizeFor_spec minsize ht_sizes nonzero
      have prime := sizes.prime member nonzero
      refine ⟨HashTable.cleared_represents _ _ prime (sizes.bounds member nonzero).2, member,
        ⟨member, nonzero⟩, ?_, .inl prime.pos, nofun⟩
      show sizeFor minsize ht_sizes * HT_LOAD_FACTOR / 100 ≤ sizeFor minsize ht_sizes
      rw [HT_LOAD_FACTOR]
      omega

/-- The map after an addition; an error leaves it as it is. -/
def afterAdd [DecidableEq κ] (m : κ → Option UInt64) (key : κ) (value : UInt64) :
    AddOutcome → κ → Option UInt64
  | .memoryError => m
  | .returned _ _ => if (m key).isNone then Function.update m key (some value) else m

theorem HashTable.Sound.add_entry [DecidableEq κ] (sound : table.Sound K ht_sizes m) {key : κ}
    {value : UInt64} (storable : K.Storable key value) (room : table.count < table.size)
    (roomAfter : table.count + 1 < table.size ∨ table.size ≤ table.exp_trigger_size) :
    ∃ a, addEntry K table key value = some a ∧ a.added = (m key).isNone ∧
      a.table.entries a.tabent = ⟨key, (m key).getD value⟩ ∧
      a.table.Sound K ht_sizes (afterAdd m key value (.returned a.added a.tabent)) := by
  obtain ⟨a, done, added⟩ := sound.represents.addEntry_spec storable room
  refine ⟨a, done, added.added, added.entry, added.represents, ?_, ?_, ?_, ?_, ?_⟩
  · exact added.frame ▸ sound.size
  · exact added.frame ▸ sound.initial
  · exact added.frame ▸ sound.trigger
  · have size : a.table.size = table.size := added.frame.size
    have trigger : a.table.exp_trigger_size = table.exp_trigger_size := by rw [added.frame]
    have atMost : a.table.count ≤ table.count + 1 := by
      rw [added.count]
      have one := Bool.toNat_le (m key).isNone
      omega
    rw [size, trigger]
    omega
  · exact added.frame ▸ sound.spare

/-- An add, with expansion and compaction. -/
theorem ADD_HASHTAB_spec [DecidableEq κ] (sizes : IsHtSizes ht_sizes)
    (sound : table.Sound K ht_sizes m) {malloc : Option Nat} (fresh : malloc ≠ some table.base)
    {key : κ} {value : UInt64} (storable : K.Storable key value) :
    ∃ outcome table', ADD_HASHTAB K ht_sizes malloc table key value = some (outcome, table') ∧
      table'.Sound K ht_sizes (afterAdd m key value outcome) ∧
      (outcome = .memoryError → table.size ≤ table.count) ∧
      ∀ added tabent, outcome = .returned added tabent → added = (m key).isNone ∧
        table'.entries tabent = ⟨key, (m key).getD value⟩ := by
  have finish : ∀ {t : HashTable κ}, t.Sound K ht_sizes m → t.count < t.size →
      (t.count + 1 < t.size ∨ t.size ≤ t.exp_trigger_size) →
      ∃ outcome table', (addEntry K t key value).map (fun a =>
          (AddOutcome.returned a.added a.tabent, a.table)) = some (outcome, table') ∧
        table'.Sound K ht_sizes (afterAdd m key value outcome) ∧
        (outcome = .memoryError → table.size ≤ table.count) ∧
        ∀ added tabent, outcome = .returned added tabent → added = (m key).isNone ∧
          table'.entries tabent = ⟨key, (m key).getD value⟩ := by
    intro t soundT room roomAfter
    obtain ⟨a, done, added, entry, soundA⟩ := soundT.add_entry storable room roomAfter
    refine ⟨_, _, by rw [done]; rfl, soundA, nofun, ?_⟩
    rintro _ _ ⟨⟩
    exact ⟨added, entry⟩
  have trigger := sound.trigger
  have room := sound.room
  rw [ADD_HASHTAB]
  by_cases grow : table.exp_trigger_size ≤ table.count
  · have nonzero : table.size ≠ 0 := sound.represents.prime.ne_zero
    have chosen : newSize ht_sizes (table.size + 1) (some table) =
        sizeFor (table.size + 1) ht_sizes := if_pos (by omega)
    have countBound := sound.represents.count_le
    have larger : newSize ht_sizes (table.size + 1) (some table) ≠ 0 →
        newSize ht_sizes (table.size + 1) (some table) ∈ ht_sizes ∧
          table.size + 1 < newSize ht_sizes (table.size + 1) (some table) := by
      intro found
      rw [chosen] at found ⊢
      obtain ⟨member, enough⟩ := sizeFor_spec _ ht_sizes found
      exact ⟨member, sizes.apart sound.size member nonzero (by omega)⟩
    obtain ⟨table', done, result⟩ := EXPAND_HASHTAB_spec sizes sound fresh
      (fun found => ⟨(larger found).1, by have := (larger found).2; omega⟩)
    simp only [if_pos grow, done, Option.bind_eq_bind, Option.bind_some]
    rcases result with ⟨stays, failed⟩ | ⟨moves, sound', count, size⟩
    · have soundFailed := failed.sound sound
      have sameSize : table'.size = table.size := by rw [failed.same]
      have sameTrigger : table'.exp_trigger_size = table.exp_trigger_size := by rw [failed.same]
      have sameCount : table'.count = table.count := by rw [failed.same]
      rw [if_pos stays.symm]
      by_cases full : table'.size ≤ table'.exp_trigger_size
      · rw [if_pos full]
        exact ⟨_, _, rfl, soundFailed, fun _ => by omega, nofun⟩
      · rw [if_neg full]
        apply finish
        · exact { soundFailed with
            represents := { soundFailed.represents with }
            trigger := le_rfl
            room := .inr le_rfl }
        · show table'.count < table'.size
          omega
        · exact .inr le_rfl
    · rw [if_neg (Ne.symm moves)]
      have enough : table.size + 1 < table'.size := by
        rw [size]
        exact (larger (size ▸ sound'.represents.prime.ne_zero)).2
      apply finish sound'
      · omega
      · left
        omega
  · simp only [if_neg grow]
    apply finish sound
    · omega
    · omega

/-- The size for a compaction holds all entries, as long as four times their number
does not overflow. -/
theorem compact_fits (sizes : IsHtSizes ht_sizes) (sound : table.Sound K ht_sizes m)
    (room : table.count < table.size) (small : table.count < 2 ^ 30)
    (found : newSize ht_sizes (HT_REHASH_TABLE_SIZE table) (some table) ≠ 0) :
    newSize ht_sizes (HT_REHASH_TABLE_SIZE table) (some table) ∈ ht_sizes ∧
      table.count < newSize ht_sizes (HT_REHASH_TABLE_SIZE table) (some table) := by
  have four : table.count * 4 % 2 ^ 32 = table.count * 4 := Nat.mod_eq_of_lt (by omega)
  have nonzero : table.size ≠ 0 := sound.represents.prime.ne_zero
  rw [newSize] at found ⊢
  split at found
  next above =>
    rw [if_pos above]
    obtain ⟨member, enough⟩ := sizeFor_spec _ ht_sizes found
    rw [HT_REHASH_TABLE_SIZE, four] at above
    refine ⟨member, lt_of_lt_of_le ?_ enough⟩
    rw [HT_REHASH_TABLE_SIZE, four]
    omega
  next notAbove =>
    rw [if_neg notAbove]
    rw [HT_REHASH_TABLE_SIZE, four] at notAbove
    obtain ⟨member, priorNonzero, ratio⟩ := sizes.priorSize_spec sound.size nonzero
    have least := (sizes.bounds member priorNonzero).1
    constructor
    · rcases max_choice (priorSize table.size ht_sizes) table.initial_size with prior | initial
      · rw [prior]
        exact member
      · rw [initial]
        exact sound.initial.1
    · apply lt_of_lt_of_le _ (le_max_left _ _)
      omega

/-- Compaction keeps what the table holds. -/
theorem COMPACT_HASHTAB_spec [DecidableEq κ] (sizes : IsHtSizes ht_sizes)
    (sound : table.Sound K ht_sizes m) {malloc : Option Nat} (fresh : malloc ≠ some table.base)
    (room : table.count < table.size) (small : table.count < 2 ^ 30) :
    ∃ table', COMPACT_HASHTAB K ht_sizes malloc table = some table' ∧
      table'.Sound K ht_sizes m := by
  rw [COMPACT_HASHTAB]
  split
  · obtain ⟨table', done, result⟩ :=
      EXPAND_HASHTAB_spec sizes sound fresh (compact_fits sizes sound room small)
    simp only [done, Option.bind_eq_bind, Option.bind_some]
    rcases result with ⟨stays, failed⟩ | ⟨moves, sound', _⟩
    · rw [if_pos stays.symm]
      have soundFailed := failed.sound sound
      exact ⟨_, rfl, { soundFailed with represents := { soundFailed.represents with } }⟩
    · rw [if_neg (Ne.symm moves)]
      exact ⟨_, rfl, sound'⟩
  · exact ⟨table, rfl, sound⟩

theorem HashTable.Sound.delete [DecidableEq κ] (sound : table.Sound K ht_sizes m) {tabent : Nat}
    (inTable : tabent < table.size) {key : κ} {value : UInt64}
    (live : table.slots K tabent = .live key value) :
    (DELETE_HTENT K table tabent).Sound K ht_sizes (Function.update m key none) ∧
      (DELETE_HTENT K table tabent).count < table.count := by
  obtain ⟨represents, fewer⟩ := sound.represents.delete inTable live
  have frame := DELETE_HTENT_sameFrame (K := K) table tabent
  have countBound := sound.represents.count_le
  refine ⟨⟨represents, ?_, ?_, ?_, .inl ?_, ?_⟩, fewer⟩
  · exact frame ▸ sound.size
  · exact frame ▸ sound.initial
  · exact frame ▸ sound.trigger
  · rw [frame.size]
    omega
  · exact frame ▸ sound.spare

theorem RETURN_IF_DELETED_eq [DecidableEq κ] (malloc : Option Nat) (hkey : κ) (tabent : Nat) :
    RETURN_IF_DELETED K ht_sizes malloc table hkey () tabent =
      match table.slots K tabent with
      | .empty => .error (some (false, table))
      | .deleted => .ok ()
      | .live key _ =>
        if key = hkey then
          .error <| (if COMPACT_NEEDED (DELETE_HTENT K table tabent) then
              COMPACT_HASHTAB K ht_sizes malloc (DELETE_HTENT K table tabent)
            else some (DELETE_HTENT K table tabent)).map fun table => (true, table)
        else .ok () := by
  rw [RETURN_IF_DELETED, HashTable.slots_apply, KeyType.slot]
  cases K.HTENT_EMPTY (table.entries tabent) <;>
    cases HTENT_MARK_DELETED (table.entries tabent) <;> simp

/-- A deletion. -/
theorem DELETE_HASHTAB_spec [DecidableEq κ] (sizes : IsHtSizes ht_sizes)
    (sound : table.Sound K ht_sizes m) {malloc : Option Nat} (fresh : malloc ≠ some table.base)
    (small : table.count ≤ 2 ^ 30) (key : κ) :
    ∃ table', DELETE_HASHTAB K ht_sizes malloc table key = some ((m key).isSome, table') ∧
      table'.Sound K ht_sizes (Function.update m key none) := by
  have rep := sound.represents
  have unchanged : m key = none → ∃ table', some (false, table) = some ((m key).isSome, table') ∧
      table'.Sound K ht_sizes (Function.update m key none) := by
    intro absent
    refine ⟨table, by rw [absent]; rfl, ?_⟩
    rw [← absent, Function.update_eq_self]
    exact sound
  have searched := probe_rule rep.prime (RETURN_IF_DELETED K ht_sizes malloc table key)
    (K.FIND_HASH key) ()
    (fun i _ => ∀ j < i, ∀ value, table.slots K (K.path table.size key j) ≠ .live key value)
    (fun result => ∃ table', result = some ((m key).isSome, table') ∧
      table'.Sound K ht_sizes (Function.update m key none))
    (by intro j impossible; omega) ?_ ?_
  · rw [DELETE_HASHTAB]
    rcases searched with ⟨result, done, outcome⟩ | ⟨_, done, invariant⟩
    · rw [done]
      exact outcome
    · rw [done]
      exact unchanged (rep.absent (rep.searchable.absent_of_cycle invariant))
  · intro i _ _ _ invariant passed j below value live
    rcases Nat.lt_succ_iff_lt_or_eq.mp below with earlier | rfl
    · exact invariant j earlier value live
    · rw [RETURN_IF_DELETED_eq] at passed
      rw [KeyType.path] at live
      simp [live] at passed
  · intro i bound _ result invariant stopped
    rw [RETURN_IF_DELETED_eq] at stopped
    split at stopped
    next empty =>
      cases stopped
      exact unchanged (rep.absent (rep.searchable.absent_of_empty invariant empty))
    next => cases stopped
    next key' value live =>
      split at stopped
      next sameKey =>
        cases stopped
        subst sameKey
        have inTable := (rep.cycle key').bounded i
        have present : m key' = some value := (rep.holds key' value).mpr ⟨_, inTable, live⟩
        obtain ⟨deleted, fewer⟩ := sound.delete inTable live
        have size := (DELETE_HTENT_sameFrame (K := K) table (K.path table.size key' i)).size
        have base : (DELETE_HTENT K table (K.path table.size key' i)).base = table.base := by
          rw [DELETE_HTENT_sameFrame table]
        have countBound := rep.count_le
        rw [present]
        split
        · have freshAfter : malloc ≠ some (DELETE_HTENT K table (K.path table.size key' i)).base :=
            base ▸ fresh
          obtain ⟨table', done, sound'⟩ := COMPACT_HASHTAB_spec sizes deleted freshAfter (by omega)
            (by omega)
          exact ⟨table', by rw [KeyType.path] at done; rw [done]; rfl, sound'⟩
        · exact ⟨_, rfl, deleted⟩
      next => cases stopped

/-! ## Runs -/

/-- The tables that a program reaches, each with the map of the keys added and not
since deleted. `malloc` never returns the array in use. A pair that is added looks
neither empty nor deleted, an entry that a caller deletes is in use, and a key is
deleted only while four times the number of entries fits the counter. -/
inductive HashTable.Run (K : KeyType κ) (ht_sizes : List Nat) [DecidableEq κ] :
    HashTable κ → (κ → Option UInt64) → Prop
  | init (malloc : Option Nat) (slot : HashTable κ) (minsize : Nat)
      (dont_compact dont_keep_spare_table : Bool) {table : HashTable κ}
      (done : INIT_HASHTAB K ht_sizes malloc slot minsize dont_compact dont_keep_spare_table =
        some table) : Run K ht_sizes table fun _ => none
  | add {table table' : HashTable κ} {m : κ → Option UInt64} (malloc : Option Nat) (key : κ)
      (value : UInt64) {outcome : AddOutcome} (before : Run K ht_sizes table m)
      (fresh : malloc ≠ some table.base) (storable : K.Storable key value)
      (done : ADD_HASHTAB K ht_sizes malloc table key value = some (outcome, table')) :
      Run K ht_sizes table' (afterAdd m key value outcome)
  | delete {table table' : HashTable κ} {m : κ → Option UInt64} (malloc : Option Nat) (key : κ)
      {found : Bool} (before : Run K ht_sizes table m) (fresh : malloc ≠ some table.base)
      (small : table.count ≤ 2 ^ 30)
      (done : DELETE_HASHTAB K ht_sizes malloc table key = some (found, table')) :
      Run K ht_sizes table' (Function.update m key none)
  | deleteEnt {table : HashTable κ} {m : κ → Option UInt64} (tabent : Nat)
      (before : Run K ht_sizes table m) (inTable : tabent < table.size)
      (valid : K.HTENT_VALID (table.entries tabent) = true) :
      Run K ht_sizes (DELETE_HASHTAB_ENT K table tabent)
        (Function.update m (table.entries tabent).key none)

/-- The table behaves as the map: every routine ends without a failed `assertpro` and
answers by the map, the counters count, and the slots before an entry on its path
are marked. -/
structure HashTable.ActsAs (K : KeyType κ) (ht_sizes : List Nat) [DecidableEq κ]
    (table : HashTable κ) (m : κ → Option UInt64) : Prop where
  lookup : ∀ key, ∃ tabent, LOOKUP_HASHTAB K table key = some tabent ∧
    tabent.map table.entries = (m key).map (HtEnt.mk key)
  add : ∀ malloc key value, malloc ≠ some table.base → K.Storable key value →
    ∃ outcome table', ADD_HASHTAB K ht_sizes malloc table key value = some (outcome, table') ∧
      (outcome = .memoryError → table.size ≤ table.count) ∧
      ∀ added tabent, outcome = .returned added tabent →
        (added = false ↔ (m key).isSome = true) ∧
        table'.entries tabent = ⟨key, (m key).getD value⟩
  delete : ∀ malloc key, malloc ≠ some table.base → table.count ≤ 2 ^ 30 →
    ∃ table', DELETE_HASHTAB K ht_sizes malloc table key = some ((m key).isSome, table')
  count : table.count = (List.range table.size).countP fun i => K.HTENT_VALID (table.entries i)
  del_count : table.del_count = (List.range table.size).countP fun i =>
    !K.HTENT_EMPTY (table.entries i) && HTENT_MARK_DELETED (table.entries i)
  passed : ∀ tabent < table.size, K.HTENT_VALID (table.entries tabent) = true →
    ∃ n < table.size, K.path table.size (table.entries tabent).key n = tabent ∧
      ∀ j < n, table.entry_passed_thru (K.path table.size (table.entries tabent).key j) = true
  /-- With the default sizes, keys can always be deleted. -/
  small : ht_sizes = default_ht_sizes → table.count ≤ 2 ^ 30

theorem HashTable.Run.sound [DecidableEq κ] (sizes : IsHtSizes ht_sizes)
    (run : HashTable.Run K ht_sizes table m) : table.Sound K ht_sizes m := by
  induction run with
  | init _ _ _ _ _ done => exact INIT_HASHTAB_spec sizes done
  | add _ _ _ _ fresh storable done sound =>
    obtain ⟨outcome, table', done', sound', _⟩ := ADD_HASHTAB_spec sizes sound fresh storable
    cases done.symm.trans done'
    exact sound'
  | delete _ key _ fresh small done sound =>
    obtain ⟨table'', done', sound'⟩ := DELETE_HASHTAB_spec sizes sound fresh small key
    cases done.symm.trans done'
    exact sound'
  | deleteEnt _ _ inTable valid sound => exact (sound.delete inTable (KeyType.valid_iff.mp valid)).1

theorem KeyType.slotLive_slot (e : HtEnt κ) : slotLive (K.slot e) = K.HTENT_VALID e := by
  rw [slot, HTENT_VALID, HTENT_MARK_DELETED]
  split
  · simp [slotLive, *]
  · split <;> simp_all [slotLive, bne]

theorem KeyType.slotDeleted_slot (e : HtEnt κ) :
    slotDeleted (K.slot e) = (!K.HTENT_EMPTY e && HTENT_MARK_DELETED e) := by
  rw [slot]
  split
  · simp [slotDeleted, *]
  · split <;> simp_all [slotDeleted]

/-- Every table of every run behaves as the map of the keys added and not since
deleted. -/
theorem hash_table_runs [DecidableEq κ] (sizes : IsHtSizes ht_sizes)
    (run : HashTable.Run K ht_sizes table m) : table.ActsAs K ht_sizes m := by
  have sound := run.sound sizes
  have rep := sound.represents
  constructor
  · intro key
    obtain ⟨tabent, done, found, absent⟩ := rep.LOOKUP_HASHTAB_spec key
    refine ⟨tabent, done, ?_⟩
    cases tabent with
    | none =>
      rw [absent rfl]
      rfl
    | some i =>
      obtain ⟨_, value, present, live⟩ := found i rfl
      rw [present, Option.map_some, Option.map_some, (KeyType.slot_live.mp live).1]
  · intro malloc key value fresh storable
    obtain ⟨outcome, table', done, _, error, returned⟩ :=
      ADD_HASHTAB_spec sizes sound fresh storable
    refine ⟨outcome, table', done, error, ?_⟩
    intro added tabent isReturned
    obtain ⟨isNew, entry⟩ := returned added tabent isReturned
    refine ⟨?_, entry⟩
    rw [isNew]
    cases m key <;> simp
  · intro malloc key fresh small
    obtain ⟨table', done, _⟩ := DELETE_HASHTAB_spec sizes sound fresh small key
    exact ⟨table', done⟩
  · rw [rep.count, countSlots]
    simp only [HashTable.slots_apply, KeyType.slotLive_slot]
  · rw [rep.del_count, countSlots]
    simp only [HashTable.slots_apply, KeyType.slotDeleted_slot]
  · intro tabent inTable valid
    obtain ⟨n, bound, here, before⟩ :=
      rep.searchable.found tabent inTable _ _ (KeyType.valid_iff.mp valid)
    exact ⟨n, bound, here, fun j below => (before j below).2⟩
  · intro default
    have all : ∀ n ∈ default_ht_sizes, n ≤ 2 ^ 30 := by decide
    exact rep.count_le.trans (all _ (default ▸ sound.size))

/-- A slot for a table that has not been set up. -/
def unsetTable (zeroed : κ) : HashTable κ where
  base := 0
  entries _ := ⟨zeroed, 0⟩
  spare_base := none
  entry_passed_thru _ := false
  size := 0
  initial_size := 0
  spare_base_size := 0
  count := 0
  del_count := 0
  exp_trigger_size := 0
  cmp_trigger_size := 0
  dont_compact := false
  dont_keep_spare_table := false

/-- The table after an addition that is known to return. -/
def HashTable.adding (K : KeyType κ) [DecidableEq κ] (table : HashTable κ) (malloc : Option Nat)
    (key : κ) (value : UInt64) : HashTable κ :=
  ((ADD_HASHTAB K default_ht_sizes malloc table key value).map Prod.snd).getD table

/-- The table after the deletion of a key. -/
def HashTable.deleting (K : KeyType κ) [DecidableEq κ] (table : HashTable κ) (key : κ) :
    HashTable κ :=
  ((DELETE_HASHTAB K default_ht_sizes none table key).map Prod.snd).getD table

theorem eq_of_map_fst {ρ σ : Type} {x : Option (ρ × σ)} {result : ρ} (state : σ)
    (done : x.map Prod.fst = some result) : x = some (result, (x.map Prod.snd).getD state) := by
  cases x with
  | none => cases done
  | some p =>
    cases done
    rfl

/-- An addition extends a run; only its answer has to be computed. -/
theorem HashTable.Run.adding [DecidableEq κ] (run : HashTable.Run K default_ht_sizes table m)
    (malloc : Option Nat) (key : κ) (value : UInt64) {outcome : AddOutcome}
    (fresh : malloc ≠ some table.base) (storable : K.Storable key value)
    (done : (ADD_HASHTAB K default_ht_sizes malloc table key value).map Prod.fst = some outcome) :
    HashTable.Run K default_ht_sizes (table.adding K malloc key value)
      (afterAdd m key value outcome) :=
  run.add malloc key value fresh storable (eq_of_map_fst table done)

/-- A deletion of a key extends a run. -/
theorem HashTable.Run.deleting [DecidableEq κ] (run : HashTable.Run K default_ht_sizes table m)
    (key : κ) {found : Bool} (small : table.count ≤ 2 ^ 30)
    (done : (DELETE_HASHTAB K default_ht_sizes none table key).map Prod.fst = some found) :
    HashTable.Run K default_ht_sizes (table.deleting K key) (Function.update m key none) :=
  run.delete none key nofun small (eq_of_map_fst table done)

/-- A run that takes every way through the routines. Keys 7, 20 and 33 hash to slot 7:
20 goes past the entry of 7 to slot 3, the deletion of 7 leaves a mark, and 33 takes
the marked slot. The key 8 finds the table half full and moves it to 37 slots. Three
deletions of keys and one through an entry leave so few that the last one moves the
table back into the spare array. -/
theorem hash_table_runs_moves :
    ∃ (marked grown shrunk : HashTable UInt32) (m m' m'' : UInt32 → Option UInt64),
      (marked.del_count = 1 ∧ marked.entry_passed_thru 7 = true ∧ m 7 = none ∧ m 20 = some 2 ∧
        marked.ActsAs int4KeyType default_ht_sizes m) ∧
      (grown.size = 37 ∧ grown.count = 7 ∧ m' 20 = some 2 ∧ m' 33 = some 3 ∧
        grown.ActsAs int4KeyType default_ht_sizes m') ∧
      shrunk.size = 13 ∧ shrunk.base = 1 ∧ shrunk.count = 3 ∧ m'' 33 = none ∧ m'' 8 = some 8 ∧
        shrunk.ActsAs int4KeyType default_ht_sizes m'' := by
  have created : HashTable.Run int4KeyType default_ht_sizes _ _ :=
    .init (some 1) (unsetTable 0) 5 false false rfl
  have first := created.adding none 7 1 nofun ⟨rfl, by decide⟩
    (show _ = some (.returned true 7) by decide +kernel)
  have collided := first.adding none 20 2 nofun ⟨rfl, by decide⟩
    (show _ = some (.returned true 3) by decide +kernel)
  have marked := collided.deleting 7 (by decide +kernel) (show _ = some true by decide +kernel)
  have reused := marked.adding none 33 3 nofun ⟨rfl, by decide⟩
    (show _ = some (.returned true 7) by decide +kernel)
  have third := reused.adding none 1 4 nofun ⟨rfl, by decide⟩
    (show _ = some (.returned true 1) by decide +kernel)
  have fourth := third.adding none 2 5 nofun ⟨rfl, by decide⟩
    (show _ = some (.returned true 2) by decide +kernel)
  have fifth := fourth.adding none 5 6 nofun ⟨rfl, by decide⟩
    (show _ = some (.returned true 5) by decide +kernel)
  have sixth := fifth.adding none 6 7 nofun ⟨rfl, by decide⟩
    (show _ = some (.returned true 6) by decide +kernel)
  have grown := sixth.adding (some 2) 8 8 (by decide +kernel) ⟨rfl, by decide⟩
    (show _ = some (.returned true 8) by decide +kernel)
  have without := grown.deleting 20 (by decide +kernel) (show _ = some true by decide +kernel)
  have emptied := without.deleteEnt 33 (by decide +kernel) (by decide +kernel)
  have fewer := emptied.deleting 1 (by decide +kernel) (show _ = some true by decide +kernel)
  have shrunk := fewer.deleting 2 (by decide +kernel) (show _ = some true by decide +kernel)
  refine ⟨_, _, _, _, _, _, ⟨?_, ?_, rfl, rfl, hash_table_runs (.inl rfl) marked⟩,
    ⟨?_, ?_, rfl, rfl, hash_table_runs (.inl rfl) grown⟩,
    ?_, ?_, ?_, ?_, ?_, hash_table_runs (.inl rfl) shrunk⟩
  all_goals decide +kernel

/-- Pairs that only look like entries in use: an integer key with a null value is not
found, though key and value are not both null, nor is a key whose value is the mark of
deleted entries; and an entry deleted twice makes the count wrong. -/
theorem hash_table_unstorable :
    ∃ created nullValue markValue once : HashTable UInt32,
      INIT_HASHTAB int4KeyType default_ht_sizes (some 1) (unsetTable 0) 5 false false =
        some created ∧
      ADD_HASHTAB int4KeyType default_ht_sizes none created 5 0 =
        some (.returned true 5, nullValue) ∧
      LOOKUP_HASHTAB int4KeyType nullValue 5 = some none ∧
      ADD_HASHTAB int4KeyType default_ht_sizes none created 5 HT_DELETED_ENTRY =
        some (.returned true 5, markValue) ∧
      LOOKUP_HASHTAB int4KeyType markValue 5 = some none ∧
      ADD_HASHTAB int4KeyType default_ht_sizes none created 5 1 =
        some (.returned true 5, once) ∧
      (DELETE_HASHTAB_ENT int4KeyType (DELETE_HASHTAB_ENT int4KeyType once 5) 5).count =
        2 ^ 32 - 1 :=
  ⟨_, _, _, _, rfl, rfl, rfl, rfl, rfl, rfl, rfl⟩

end Ydb
