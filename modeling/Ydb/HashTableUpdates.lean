import Ydb.HashTableSearch

/-!
# Updating a hash table

An addition goes past the slots before the first empty one and marks them; it
then uses the first deleted entry it met, if any. A deletion may empty an entry
that was never gone past. Both keep the table searchable and its counters right.
-/

namespace Ydb

open Lib

theorem increment_eq {counter : Nat} (small : counter < 2 ^ 31) : increment counter = counter + 1 := by
  rw [increment, Nat.mod_eq_of_lt]
  omega

theorem decrement_eq {counter : Nat} (positive : 0 < counter) (small : counter < 2 ^ 32) :
    decrement counter = counter - 1 := by
  have wrapped : counter + (2 ^ 32 - 1) = counter - 1 + 2 ^ 32 := by omega
  rw [decrement, wrapped, Nat.add_mod_right, Nat.mod_eq_of_lt]
  omega

variable {κ : Type} {K : KeyType κ}

/-- An update of the entries: the rest of the table stays. -/
def HashTable.SameFrame (table table' : HashTable κ) : Prop :=
  table' = { table with
    entries := table'.entries
    entry_passed_thru := table'.entry_passed_thru
    count := table'.count
    del_count := table'.del_count }

section Updates

variable {table : HashTable κ} {m : κ → Option UInt64}

/-! ## Additions -/

section Fields

variable (table : HashTable κ) (tabent : Nat) (key : κ) (value : UInt64)

@[simp]
theorem INSERT_HTENT_entries : (INSERT_HTENT table tabent key value).entries =
    Function.update table.entries tabent ⟨key, value⟩ := rfl

@[simp]
theorem INSERT_HTENT_size : (INSERT_HTENT table tabent key value).size = table.size := rfl

@[simp]
theorem INSERT_HTENT_count : (INSERT_HTENT table tabent key value).count = increment table.count :=
  rfl

@[simp]
theorem bit_set_entry_passed_thru : (table.bit_set tabent).entry_passed_thru =
    Function.update table.entry_passed_thru tabent true := rfl

end Fields

theorem HashTable.slots_INSERT_HTENT {key : κ} {value : UInt64} (storable : K.Storable key value)
    (table : HashTable κ) (tabent : Nat) :
    (INSERT_HTENT table tabent key value).slots K =
      Function.update (table.slots K) tabent (.live key value) := by
  rw [HashTable.slots, INSERT_HTENT, Function.comp_update, storable.slot_eq]
  rfl

theorem HashTable.Represents.mark (rep : table.Represents K m) {passed : Nat → Bool}
    (kept : ∀ s, table.entry_passed_thru s = true → passed s = true) :
    { table with entry_passed_thru := passed }.Represents K m :=
  { rep with searchable := rep.searchable.mark kept }

/-- Insert a new key in a free slot of its path. -/
theorem HashTable.Represents.insert [DecidableEq κ] (rep : table.Represents K m) {key : κ}
    {value : UInt64} (storable : K.Storable key value) (absent : m key = none) {d : Nat}
    (bound : d < table.size)
    (free : ∀ key' value', table.slots K (K.path table.size key d) ≠ .live key' value')
    (before : ∀ j < d, table.slots K (K.path table.size key j) ≠ .empty ∧
      table.entry_passed_thru (K.path table.size key j) = true) :
    (INSERT_HTENT table (K.path table.size key d) key value).Represents K
      (Function.update m key (some value)) := by
  have inTable : K.path table.size key d < table.size := (rep.cycle key).bounded d
  have slots := HashTable.slots_INSERT_HTENT storable table (K.path table.size key d)
  have notHeld := rep.notHeld absent
  -- The slot was not live, and it was deleted exactly if its value is the mark.
  have wasFree : slotLive (table.slots K (K.path table.size key d)) = false := by
    cases here : table.slots K (K.path table.size key d) with
    | empty => rfl
    | deleted => rfl
    | live key' value' => exact absurd here (free key' value')
  have wasDeleted : slotDeleted (table.slots K (K.path table.size key d)) =
      HTENT_MARK_DELETED (table.entries (K.path table.size key d)) := by
    cases here : table.slots K (K.path table.size key d) with
    | empty => exact (rep.unmarked _ (KeyType.slot_empty.mp here)).symm
    | deleted => exact (KeyType.slot_deleted.mp here).2.symm
    | live key' value' => exact absurd here (free key' value')
  have live := countSlots_update slotLive inTable (table.slots K) (.live key value)
  have deleted := countSlots_update slotDeleted inTable (table.slots K) (.live key value)
  rw [wasFree] at live
  rw [wasDeleted] at deleted
  have countBound := countSlots_le slotDeleted table.size (table.slots K)
  refine ⟨rep.prime, rep.bound, ?_, ?_, ?_, ?_, ?_⟩
  · rw [slots]
    exact rep.searchable.insert (fun _ marked => marked) value bound before notHeld
  · intro key' value'
    rw [slots, INSERT_HTENT_size, holds_update_live inTable free, ← rep.holds]
    by_cases same : key' = key
    · subst same
      rw [Function.update_self, absent]
      simp [eq_comm]
    · rw [Function.update_of_ne same]
      simp [same]
  · rw [slots, INSERT_HTENT_count, INSERT_HTENT_size, increment_eq (rep.count_le.trans_lt rep.bound),
      rep.count]
    simp only [slotLive, Bool.toNat_false, Bool.toNat_true, Nat.add_zero] at live
    omega
  · rw [slots]
    show (if _ then _ else _) = countSlots slotDeleted table.size _
    have size := rep.bound
    split
    next marked =>
      rw [marked] at deleted
      simp only [slotDeleted, Bool.toNat_false, Bool.toNat_true, Nat.add_zero] at deleted
      rw [rep.del_count, decrement_eq (by omega) (by omega)]
      omega
    next unmarked =>
      rw [Bool.not_eq_true] at unmarked
      rw [unmarked] at deleted
      simp only [slotDeleted, Bool.toNat_false, Nat.add_zero] at deleted
      rw [rep.del_count, deleted]
  · intro i
    by_cases here : i = K.path table.size key d
    · rw [here, INSERT_HTENT_entries, Function.update_self, storable.1]
      nofun
    · rw [INSERT_HTENT_entries, Function.update_of_ne here]
      exact rep.unmarked i

theorem RETURN_IF_ADDED_eq [DecidableEq κ] (hkey : κ) (value : UInt64) (table : HashTable κ)
    (first_del_ent : Option Nat) (tabent : Nat) :
    RETURN_IF_ADDED K hkey value (table, first_del_ent) tabent =
      match table.slots K tabent with
      | .empty => .error ⟨INSERT_HTENT table (first_del_ent.getD tabent) hkey value, true,
          first_del_ent.getD tabent⟩
      | .deleted => .ok (table.bit_set tabent, some (first_del_ent.getD tabent))
      | .live key _ =>
        if key = hkey then .error ⟨table, false, tabent⟩
        else .ok (table.bit_set tabent, first_del_ent) := by
  rw [RETURN_IF_ADDED, HashTable.slots_apply, KeyType.slot]
  cases K.HTENT_EMPTY (table.entries tabent) <;>
    cases HTENT_MARK_DELETED (table.entries tabent) <;> simp

/-- What an addition has found out after `i` slots. -/
structure Passed (K : KeyType κ) (table : HashTable κ) (key : κ) (i : Nat) (table' : HashTable κ)
    (first_del_ent : Option Nat) : Prop where
  same : table' = { table with entry_passed_thru := table'.entry_passed_thru }
  kept : ∀ s, table.entry_passed_thru s = true → table'.entry_passed_thru s = true
  marked : ∀ j < i, table'.entry_passed_thru (K.path table.size key j) = true
  nonempty : ∀ j < i, table.slots K (K.path table.size key j) ≠ .empty
  other : ∀ j < i, ∀ value, table.slots K (K.path table.size key j) ≠ .live key value
  first : ∀ d, first_del_ent = some d → ∃ j < i, d = K.path table.size key j ∧
    table.slots K d = .deleted
  none : first_del_ent = none → ∀ j < i, table.slots K (K.path table.size key j) ≠ .deleted

namespace Passed

variable {key : κ} {i : Nat} {table' : HashTable κ} {first_del_ent : Option Nat}
  (passed : Passed K table key i table' first_del_ent)

include passed

theorem size : table'.size = table.size := by rw [passed.same]

theorem count : table'.count = table.count := by rw [passed.same]

theorem slots : table'.slots K = table.slots K := by
  rw [passed.same]
  rfl

/-- Go past a slot that is neither empty nor the key's. -/
theorem step (nonempty : table.slots K (K.path table.size key i) ≠ .empty)
    (other : ∀ value, table.slots K (K.path table.size key i) ≠ .live key value)
    {first_del_ent' : Option Nat}
    (first : first_del_ent' = first_del_ent ∨ (first_del_ent' = some (K.path table.size key i) ∧
      table.slots K (K.path table.size key i) = .deleted))
    (none : first_del_ent' = .none → first_del_ent = .none ∧
      table.slots K (K.path table.size key i) ≠ .deleted) :
    Passed K table key (i + 1) (table'.bit_set (K.path table.size key i)) first_del_ent' where
  same := by
    rw [HashTable.bit_set, passed.same]
  kept s marked := by
    rw [bit_set_entry_passed_thru]
    by_cases here : s = K.path table.size key i
    · rw [here, Function.update_self]
    · rw [Function.update_of_ne here]
      exact passed.kept s marked
  marked j below := by
    rw [bit_set_entry_passed_thru]
    by_cases here : K.path table.size key j = K.path table.size key i
    · rw [here, Function.update_self]
    · rw [Function.update_of_ne here]
      apply passed.marked j
      rcases Nat.lt_succ_iff_lt_or_eq.mp below with earlier | rfl
      · exact earlier
      · exact absurd rfl here
  nonempty j below := by
    rcases Nat.lt_succ_iff_lt_or_eq.mp below with earlier | rfl
    · exact passed.nonempty j earlier
    · exact nonempty
  other j below := by
    rcases Nat.lt_succ_iff_lt_or_eq.mp below with earlier | rfl
    · exact passed.other j earlier
    · exact other
  first d isFirst := by
    rcases first with unchanged | ⟨new, deleted⟩
    · obtain ⟨j, below, here⟩ := passed.first d (unchanged ▸ isFirst)
      exact ⟨j, Nat.lt_succ_of_lt below, here⟩
    · obtain rfl := Option.some.inj (new.symm.trans isFirst)
      exact ⟨i, Nat.lt_succ_self i, rfl, deleted⟩
  none isNone j below := by
    obtain ⟨noneBefore, notHere⟩ := none isNone
    rcases Nat.lt_succ_iff_lt_or_eq.mp below with earlier | rfl
    · exact passed.none noneBefore j earlier
    · exact notHere

/-- Use a free slot of the path that the addition has come to. -/
theorem insert [DecidableEq κ] (rep : table.Represents K m) {value : UInt64}
    (storable : K.Storable key value) (absent : m key = .none) {d : Nat} (atMost : d ≤ i)
    (bound : d < table.size)
    (free : ∀ key' value', table.slots K (K.path table.size key d) ≠ .live key' value') :
    (INSERT_HTENT table' (K.path table.size key d) key value).Represents K
        (Function.update m key (some value)) ∧
      table.SameFrame (INSERT_HTENT table' (K.path table.size key d) key value) := by
  have rep' : table'.Represents K m := by
    rw [passed.same]
    exact rep.mark passed.kept
  constructor
  · have inserted := rep'.insert storable absent (d := d) (by rw [passed.size]; exact bound)
      (by rw [passed.slots, passed.size]; exact free) (by
        intro j below
        rw [passed.slots, passed.size]
        exact ⟨passed.nonempty j (below.trans_le atMost), passed.marked j (below.trans_le atMost)⟩)
    rw [passed.size] at inserted
    exact inserted
  · rw [passed.same]
    rfl

end Passed

/-- The outcome of an addition to the entries. -/
structure AddedTo (K : KeyType κ) [DecidableEq κ] (table : HashTable κ) (m : κ → Option UInt64)
    (key : κ) (value : UInt64) (a : Added κ) : Prop where
  added : a.added = (m key).isNone
  represents : a.table.Represents K (if (m key).isNone then Function.update m key (some value) else m)
  tabent : a.tabent < table.size
  entry : a.table.entries a.tabent = ⟨key, (m key).getD value⟩
  count : a.table.count = table.count + (m key).isNone.toNat
  frame : table.SameFrame a.table

theorem AddedTo.of_inserted [DecidableEq κ] (rep : table.Represents K m) {key : κ} {value : UInt64}
    {table' : HashTable κ} {tabent : Nat} (absent : m key = none) (inTable : tabent < table.size)
    (sameCount : table'.count = table.count)
    (inserted : (INSERT_HTENT table' tabent key value).Represents K
        (Function.update m key (some value)) ∧
      table.SameFrame (INSERT_HTENT table' tabent key value)) :
    AddedTo K table m key value ⟨INSERT_HTENT table' tabent key value, true, tabent⟩ where
  added := by rw [absent]; rfl
  represents := by
    rw [absent]
    exact inserted.1
  tabent := inTable
  entry := by
    rw [absent]
    exact Function.update_self ..
  count := by
    rw [absent, INSERT_HTENT_count, sameCount, increment_eq (rep.count_le.trans_lt rep.bound)]
    rfl
  frame := inserted.2

theorem AddedTo.of_present [DecidableEq κ] (rep : table.Represents K m) {key : κ}
    {value value' : UInt64} {i : Nat} {table' : HashTable κ} {first_del_ent : Option Nat}
    (passed : Passed K table key i table' first_del_ent)
    (live : table.slots K (K.path table.size key i) = .live key value') :
    AddedTo K table m key value ⟨table', false, K.path table.size key i⟩ := by
  have inTable := (rep.cycle key).bounded i
  have present : m key = some value' := (rep.holds key value').mpr ⟨_, inTable, live⟩
  have entries : table'.entries = table.entries := by rw [passed.same]
  refine ⟨by rw [present]; rfl, ?_, inTable, ?_, ?_, ?_⟩
  · rw [present, passed.same]
    exact rep.mark passed.kept
  · rw [present, entries]
    exact (KeyType.slot_live.mp live).1
  · rw [present]
    exact passed.count
  · rw [passed.same]
    rfl

/-- An addition to a table that is not full ends, and changes the map by its key if
that is new. -/
theorem HashTable.Represents.addEntry_spec [DecidableEq κ] (rep : table.Represents K m) {key : κ}
    {value : UInt64} (storable : K.Storable key value) (room : table.count < table.size) :
    ∃ a, addEntry K table key value = some a ∧ AddedTo K table m key value a := by
  have searched := probe_rule rep.prime (RETURN_IF_ADDED K key value) (K.FIND_HASH key)
    (table, none) (fun i state => Passed K table key i state.1 state.2)
    (AddedTo K table m key value) ?_ ?_ ?_
  · rw [addEntry]
    rcases searched with ⟨a, done, result⟩ | ⟨⟨table', first_del_ent⟩, done, passed⟩
    · rw [done]
      exact ⟨a, rfl, result⟩
    · rw [done]
      have absent : m key = none :=
        rep.absent (rep.searchable.absent_of_cycle passed.other)
      cases first_del_ent with
      | none =>
        -- All slots are live, so the table is full.
        obtain ⟨s, inTable, free⟩ := exists_of_countSlots_lt slotLive (rep.count ▸ room)
        obtain ⟨i, bound, rfl⟩ := (rep.cycle key).surjective inTable
        cases here : table.slots K (K.path table.size key i) with
        | empty => exact absurd here (passed.nonempty i bound)
        | deleted => exact absurd here (passed.none rfl i bound)
        | live key' value' =>
          rw [here] at free
          cases free
      | some d =>
        obtain ⟨j, below, rfl, deleted⟩ := passed.first d rfl
        refine ⟨_, rfl, AddedTo.of_inserted rep absent ((rep.cycle key).bounded j)
          passed.count (passed.insert rep storable absent below.le below ?_)⟩
        rw [deleted]
        simp
  · exact ⟨rfl, fun _ => id, by simp, by simp, by simp, by simp, by simp⟩
  · rintro i bound ⟨table', first_del_ent⟩ ⟨table'', first_del_ent'⟩ passed step
    rw [RETURN_IF_ADDED_eq, passed.slots] at step
    split at step
    next => cases step
    next deleted =>
      cases step
      apply passed.step
      · rw [KeyType.path, deleted]
        simp
      · rw [KeyType.path, deleted]
        simp
      · cases first_del_ent with
        | none => exact .inr ⟨rfl, deleted⟩
        | some d => exact .inl rfl
      · simp
    next key' value' live =>
      split at step
      next => cases step
      next otherKey =>
        cases step
        apply passed.step
        · rw [KeyType.path, live]
          simp
        · intro value same
          rw [KeyType.path, live] at same
          injection same with sameKey
          exact otherKey sameKey
        · exact .inl rfl
        · intro isNone
          refine ⟨isNone, ?_⟩
          rw [KeyType.path, live]
          simp
  · rintro i bound ⟨table', first_del_ent⟩ a passed step
    rw [RETURN_IF_ADDED_eq, passed.slots] at step
    split at step
    next empty =>
      cases step
      have absent : m key = none :=
        rep.absent (rep.searchable.absent_of_empty passed.other empty)
      cases first_del_ent with
      | none =>
        apply AddedTo.of_inserted rep absent ((rep.cycle key).bounded i) passed.count
        apply passed.insert rep storable absent le_rfl bound
        rw [KeyType.path, empty]
        simp
      | some d =>
        obtain ⟨j, below, here, deleted⟩ := passed.first d rfl
        subst here
        apply AddedTo.of_inserted rep absent ((rep.cycle key).bounded j) passed.count
        apply passed.insert rep storable absent below.le (below.trans bound)
        rw [deleted]
        simp
    next => cases step
    next key' value' live =>
      split at step
      next sameKey =>
        cases step
        subst sameKey
        exact AddedTo.of_present rep passed live
      next => cases step

/-! ## Deletions -/

/-- What a deletion leaves in a slot. -/
def leftBehind (passed : Bool) : Slot κ UInt64 := if passed then .deleted else .empty

theorem leftBehind_not_live (passed : Bool) (key : κ) (value : UInt64) :
    leftBehind passed ≠ .live key value := by
  cases passed <;> nofun

theorem HashTable.slots_DELETE_HTENT {tabent : Nat} {key : κ} {value : UInt64}
    (live : table.slots K tabent = .live key value) :
    (DELETE_HTENT K table tabent).slots K =
      Function.update (table.slots K) tabent (leftBehind (table.entry_passed_thru tabent)) := by
  obtain ⟨_, nonempty, _⟩ := KeyType.slot_live.mp live
  rw [DELETE_HTENT, leftBehind]
  split
  · rw [HashTable.slots, Function.comp_update]
    congr 1
    apply KeyType.slot_deleted.mpr
    exact ⟨K.nonempty_deleted _ nonempty, rfl⟩
  · rw [HashTable.slots, Function.comp_update]
    congr 1
    exact KeyType.slot_empty.mpr (K.empty_markEmpty _)

theorem DELETE_HTENT_sameFrame (table : HashTable κ) (tabent : Nat) :
    table.SameFrame (DELETE_HTENT K table tabent) := by
  rw [DELETE_HTENT]
  split <;> rfl

/-- Delete an entry that is in use. -/
theorem HashTable.Represents.delete [DecidableEq κ] (rep : table.Represents K m) {tabent : Nat}
    (inTable : tabent < table.size) {key : κ} {value : UInt64}
    (live : table.slots K tabent = .live key value) :
    (DELETE_HTENT K table tabent).Represents K (Function.update m key none) ∧
      (DELETE_HTENT K table tabent).count < table.count := by
  have slots := HashTable.slots_DELETE_HTENT live
  have size : (DELETE_HTENT K table tabent).size = table.size := by
    rw [DELETE_HTENT_sameFrame table tabent]
  have passed : (DELETE_HTENT K table tabent).entry_passed_thru = table.entry_passed_thru := by
    rw [DELETE_HTENT]
    split <;> rfl
  have liveCount := countSlots_update slotLive inTable (table.slots K)
    (leftBehind (table.entry_passed_thru tabent))
  have deletedCount := countSlots_update slotDeleted inTable (table.slots K)
    (leftBehind (table.entry_passed_thru tabent))
  rw [← slots, ← rep.count, live] at liveCount
  rw [← slots, ← rep.del_count, live] at deletedCount
  have less : countSlots slotLive table.size ((DELETE_HTENT K table tabent).slots K) + 1 =
      table.count := by
    cases marked : table.entry_passed_thru tabent <;> rw [marked] at liveCount <;> exact liveCount
  have bound := rep.bound
  have countBound := rep.count_le
  have count : (DELETE_HTENT K table tabent).count = table.count - 1 := by
    rw [← decrement_eq (by omega) (by omega), DELETE_HTENT]
    split <;> rfl
  refine ⟨⟨?_, ?_, ?_, ?_, ?_, ?_, ?_⟩, by omega⟩
  · rw [size]
    exact rep.prime
  · rw [size]
    exact rep.bound
  · rw [size, slots, passed]
    apply rep.searchable.erase (leftBehind_not_live _)
    cases marked : table.entry_passed_thru tabent
    · exact fun _ => rfl
    · nofun
  · intro key' value'
    rw [size, slots, holds_update_free rep.searchable inTable live (leftBehind_not_live _),
      ← rep.holds]
    by_cases same : key' = key
    · subst same
      simp
    · simp [same]
  · rw [size, count]
    omega
  · have deletions := countSlots_le slotDeleted table.size (table.slots K)
    rw [size]
    cases marked : table.entry_passed_thru tabent with
    | true =>
      rw [marked] at deletedCount
      have same : (DELETE_HTENT K table tabent).del_count = increment table.del_count := by
        rw [DELETE_HTENT, if_pos marked]
      rw [same, increment_eq (by rw [rep.del_count]; omega)]
      exact deletedCount.symm
    | false =>
      rw [marked] at deletedCount
      have same : (DELETE_HTENT K table tabent).del_count = table.del_count := by
        rw [DELETE_HTENT, if_neg (by rw [marked]; nofun)]
      rw [same]
      exact deletedCount.symm
  · obtain ⟨_, nonempty, unmarked⟩ := KeyType.slot_live.mp live
    intro i
    rw [DELETE_HTENT]
    split
    next =>
      by_cases here : i = tabent
      · dsimp only
        rw [here, Function.update_self, K.nonempty_deleted _ nonempty]
        nofun
      · dsimp only
        rw [Function.update_of_ne here]
        exact rep.unmarked i
    next =>
      by_cases here : i = tabent
      · dsimp only
        rw [here, Function.update_self]
        intro _
        rcases K.markEmpty_value (table.entries tabent) with kept | zero
        · rw [HTENT_MARK_DELETED, kept]
          exact unmarked
        · rw [HTENT_MARK_DELETED, zero]
          rfl
      · dsimp only
        rw [Function.update_of_ne here]
        exact rep.unmarked i

end Updates

end Ydb
