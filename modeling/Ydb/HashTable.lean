import Ydb.Lib.OpenAddressing

/-!
# Hash tables

The hash tables of the runtime are arrays of prime size with double hashing. One
body of code is expanded for six types of key, which differ in the hash, in what
an empty entry looks like and in how an entry is emptied. Beside the entries a
bitmap records which slots an addition went past: a deletion empties an entry
whose bit is clear and overwrites the value of the others with a mark. A table
is moved to an array of another size when it is half full, or when it holds many
marks; the array it leaves is kept as a spare.

`none` stands for a failed `assertpro` and for a loop that does not end in as
many rounds as the table has slots. `malloc` is the answer of the allocator if it
is asked: the address of a new array, or nothing when memory is exhausted. The
contents of a spare or new array are cleared before they are used and are not
recorded.
-/

namespace Ydb

open Lib

/-- An entry; the value is a pointer. -/
structure HtEnt (κ : Type) where
  key : κ
  value : UInt64
deriving DecidableEq, Repr

def HT_DELETED_ENTRY : UInt64 := 0xFFFFFFFFFFFFFFFF

/-- Whether an entry was deleted. -/
def HTENT_MARK_DELETED {κ : Type} (tabent : HtEnt κ) : Bool := HT_DELETED_ENTRY == tabent.value

/-! ## Types of key -/

/-- What the code is expanded with for one type of key. `zeroed` is a key whose
bytes are all zero. -/
structure KeyType (κ : Type) where
  FIND_HASH : κ → Nat
  HTENT_EMPTY : HtEnt κ → Bool
  HTENT_MARK_EMPTY : HtEnt κ → HtEnt κ
  zeroed : κ
  empty_zeroed : HTENT_EMPTY ⟨zeroed, 0⟩ = true
  empty_markEmpty : ∀ e, HTENT_EMPTY (HTENT_MARK_EMPTY e) = true
  markEmpty_value : ∀ e, (HTENT_MARK_EMPTY e).value = e.value ∨ (HTENT_MARK_EMPTY e).value = 0
  nonempty_deleted : ∀ e, HTENT_EMPTY e = false →
    HTENT_EMPTY { e with value := HT_DELETED_ENTRY } = false

/-- Whether an entry is in use. -/
def KeyType.HTENT_VALID {κ : Type} (K : KeyType κ) (tabent : HtEnt κ) : Bool :=
  !K.HTENT_EMPTY tabent && HT_DELETED_ENTRY != tabent.value

/-- The types whose entries are empty when the value is null. -/
def valueKeyType {κ : Type} (hash : κ → Nat) (zeroed : κ) : KeyType κ where
  FIND_HASH := hash
  HTENT_EMPTY e := e.value == 0
  HTENT_MARK_EMPTY e := { e with value := 0 }
  zeroed := zeroed
  empty_zeroed := rfl
  empty_markEmpty _ := rfl
  markEmpty_value _ := .inr rfl
  nonempty_deleted _ _ := rfl

/-- Tables by four-byte numbers. -/
def int4KeyType : KeyType UInt32 := valueKeyType (fun hkey => hkey.toNat) 0

/-- Tables by eight-byte numbers. -/
def int8KeyType : KeyType UInt64 :=
  valueKeyType (fun hkey => ((hkey &&& (0xFFFFFFFF : UInt64)) ^^^ (hkey >>> (31 : UInt64))).toNat) 0

/-- Tables by addresses. -/
def addrKeyType : KeyType UInt64 :=
  valueKeyType (fun hkey => ((hkey &&& (0xFFFFFFFF : UInt64)) ^^^ (hkey >>> (31 : UInt64))).toUInt32.toNat) 0

/-- A variable name; the caller computes `hash_code`. -/
structure MnameEntry where
  var_name : List UInt8
  hash_code : UInt32
deriving DecidableEq, Repr

/-- Tables by names. -/
def mnameKeyType : KeyType MnameEntry where
  FIND_HASH hkey := hkey.hash_code.toNat
  HTENT_EMPTY e := e.key.var_name.length == 0
  HTENT_MARK_EMPTY e := { e with key := { e.key with var_name := [] } }
  zeroed := ⟨[], 0⟩
  empty_zeroed := rfl
  empty_markEmpty _ := rfl
  markEmpty_value _ := .inl rfl
  nonempty_deleted _ nonempty := nonempty

/-- A string and its hash. -/
structure Stringkey where
  str : List UInt8
  hash_code : UInt32
deriving DecidableEq, Repr

/-- Tables by strings. -/
def strKeyType : KeyType Stringkey where
  FIND_HASH hkey := hkey.hash_code.toNat
  HTENT_EMPTY e := e.key.hash_code == 0 && e.key.str.length == 0
  HTENT_MARK_EMPTY e := { e with key := ⟨[], 0⟩ }
  zeroed := ⟨[], 0⟩
  empty_zeroed := rfl
  empty_markEmpty _ := rfl
  markEmpty_value _ := .inl rfl
  nonempty_deleted _ nonempty := nonempty

/-- The source of indirect code and the context it is for. -/
structure IcodeStr where
  str : List UInt8
  code : UInt32
deriving DecidableEq, Repr

/-- The hash of a source is computed from its first and last bytes by
`ydb_mmrhash_32`, given a string and a seed. -/
def objcodeHash (ydb_mmrhash_32 : List UInt8 → UInt32 → UInt32) (hkey : IcodeStr) : Nat :=
  let mident_fixed := 32
  if hkey.str.length < mident_fixed then (ydb_mmrhash_32 hkey.str 0).toNat
  else
    let hash := ydb_mmrhash_32 (hkey.str.take (mident_fixed / 2)) 0
    (ydb_mmrhash_32 (hkey.str.drop (hkey.str.length - mident_fixed / 2)) hash).toNat

/-- Tables by object code. -/
def objcodeKeyType (ydb_mmrhash_32 : List UInt8 → UInt32 → UInt32) : KeyType IcodeStr where
  FIND_HASH := objcodeHash ydb_mmrhash_32
  HTENT_EMPTY e := e.value == 0 && e.key.str.length == 0
  HTENT_MARK_EMPTY e := { e with value := 0, key := { e.key with str := [] } }
  zeroed := ⟨[], 0⟩
  empty_zeroed := rfl
  empty_markEmpty _ := rfl
  markEmpty_value _ := .inr rfl
  nonempty_deleted _ _ := rfl

/-! ## Tables -/

/-- A table. `base` is the address of the array `entries`, of which the first
`size` are there, and bit `i` of the bitmap is `entry_passed_thru i`. -/
structure HashTable (κ : Type) where
  base : Nat
  entries : Nat → HtEnt κ
  spare_base : Option Nat
  entry_passed_thru : Nat → Bool
  size : Nat
  initial_size : Nat
  spare_base_size : Nat
  count : Nat
  del_count : Nat
  exp_trigger_size : Nat
  cmp_trigger_size : Nat
  dont_compact : Bool
  dont_keep_spare_table : Bool

def HT_LOAD_FACTOR : Nat := 50

def HT_REHASH_FACTOR : Nat := HT_LOAD_FACTOR / 2

/-- Add one to a 32-bit counter. -/
def increment (counter : Nat) : Nat := (counter + 1) % 2 ^ 32

/-- Subtract one from a 32-bit counter. -/
def decrement (counter : Nat) : Nat := (counter + (2 ^ 32 - 1)) % 2 ^ 32

variable {κ : Type}

/-- The size for a smaller table. -/
def HT_REHASH_TABLE_SIZE (table : HashTable κ) : Nat :=
  min table.size (table.count * 4 % 2 ^ 32)

/-- Whether deleted entries are too many. -/
def COMPACT_NEEDED (table : HashTable κ) : Bool :=
  !table.dont_compact && (decide (table.cmp_trigger_size < table.del_count) ||
    (decide (table.initial_size < table.size) && decide (table.count < table.cmp_trigger_size / 2)))

/-- Write a new entry. -/
def INSERT_HTENT (table : HashTable κ) (tabent : Nat) (hkey : κ) (value : UInt64) : HashTable κ :=
  { table with
    del_count :=
      if HTENT_MARK_DELETED (table.entries tabent) then decrement table.del_count
      else table.del_count
    entries := Function.update table.entries tabent ⟨hkey, value⟩
    count := increment table.count }

/-- Record that an addition went past a slot. -/
def HashTable.bit_set (table : HashTable κ) (ht_index : Nat) : HashTable κ :=
  { table with entry_passed_thru := Function.update table.entry_passed_thru ht_index true }

/-- The step between probes. -/
def SET_REHASH_FACTOR (hash prime : Nat) : Nat := 1 + hash % (prime - 1)

/-- The next probe. -/
def SET_REHASH_INDEX (ht_index rhfact prime : Nat) : Nat :=
  if prime ≤ ht_index + rhfact then ht_index + rhfact - prime else ht_index + rhfact

/-! ## Probing -/

section Probing

variable {σ ρ : Type} (prime : Nat) (step : σ → Nat → Except ρ σ)

/-- Go round the table until the first slot comes up again. A step that throws
returns from the routine. -/
def probeLoop (rhfact save_ht_index : Nat) : Nat → Nat → σ → Option (Except ρ σ)
  | 0, _, _ => none
  | rounds + 1, ht_index, state =>
    match step state ht_index with
    | .error result => some (.error result)
    | .ok state =>
      let ht_index := SET_REHASH_INDEX ht_index rhfact prime
      if ht_index ≠ save_ht_index then probeLoop rhfact save_ht_index rounds ht_index state
      else some (.ok state)

/-- The search common to the routines: the slot of the hash, then the others. -/
def probe (hash : Nat) (state : σ) : Option (Except ρ σ) :=
  let ht_index := hash % prime
  match step state ht_index with
  | .error result => some (.error result)
  | .ok state =>
    let rhfact := SET_REHASH_FACTOR hash prime
    probeLoop prime step rhfact ht_index prime (SET_REHASH_INDEX ht_index rhfact prime) state

end Probing

variable (K : KeyType κ)

/-- A slot that ends a search: it is empty or holds the key. -/
def RETURN_IF_LOOKUP_DONE [DecidableEq κ] (table : HashTable κ) (hkey : κ) (_ : Unit)
    (tabent : Nat) : Except (Option Nat) Unit :=
  if K.HTENT_EMPTY (table.entries tabent) then .error none
  else if !HTENT_MARK_DELETED (table.entries tabent) && (table.entries tabent).key == hkey then
    .error (some tabent)
  else .ok ()

/-- The index of the key's entry. -/
def LOOKUP_HASHTAB [DecidableEq κ] (table : HashTable κ) (key : κ) : Option (Option Nat) := do
  match ← probe table.size (RETURN_IF_LOOKUP_DONE K table key) (K.FIND_HASH key) () with
  | .error tabent => some tabent
  | .ok () => some none

/-- An addition that returns: whether the key is new, and its entry. -/
structure Added (κ : Type) where
  table : HashTable κ
  added : Bool
  tabent : Nat

/-- One slot of an addition. The state is the table and the first deleted entry
met so far. -/
def RETURN_IF_ADDED [DecidableEq κ] (hkey : κ) (value : UInt64) :
    HashTable κ × Option Nat → Nat → Except (Added κ) (HashTable κ × Option Nat)
  | (table, first_del_ent), tabent =>
    if K.HTENT_EMPTY (table.entries tabent) then
      let tabent := first_del_ent.getD tabent
      .error ⟨INSERT_HTENT table tabent hkey value, true, tabent⟩
    else if !HTENT_MARK_DELETED (table.entries tabent) then
      if (table.entries tabent).key = hkey then .error ⟨table, false, tabent⟩
      else .ok (table.bit_set tabent, first_del_ent)
    else .ok (table.bit_set tabent, some (first_del_ent.getD tabent))

/-- `ADD_HASHTAB_INTL` from the search on, and the whole of it while the table is
being moved. -/
def addEntry [DecidableEq κ] (table : HashTable κ) (key : κ) (value : UInt64) :
    Option (Added κ) := do
  match ← probe table.size (RETURN_IF_ADDED K key value) (K.FIND_HASH key) (table, none) with
  | .error added => some added
  | .ok (table, some first_del_ent) =>
    some ⟨INSERT_HTENT table first_del_ent key value, true, first_del_ent⟩
  | .ok (_, none) => none

/-! ## Sizes -/

/-- The sizes of tables, ended by zero. -/
def default_ht_sizes : List Nat :=
  [13, 37, 53, 97, 193, 389, 769, 1543, 3079, 6151, 12289, 24593, 49157,
    62501, 102503, 154981, 218459, 290047, 366077, 442861, 517151,
    603907, 705247, 823541, 961729, 1123079, 1311473, 1531499, 1788443,
    2088497, 2438881, 2848057, 3325901, 3883903, 4535483, 5296409, 6185021,
    7222661, 8434427, 9849503, 11502019, 13431661, 15685133, 18316643, 21389671,
    24978257, 29168903, 34062629, 39777391, 46450931, 54244103,
    0]

/-- The sizes for recovery and rollback. -/
def extended_ht_sizes : List Nat :=
  [13, 37, 53, 97, 193, 389, 769, 1543, 3079, 6151, 12289, 24593, 49157,
    62501, 102503, 154981, 218459, 290047, 366077, 442861, 517151,
    603907, 705247, 823541, 961729, 1123079, 1311473, 1531499, 1788443,
    2088497, 2438881, 2848057, 3325901, 3883903, 4535483, 5296409, 6185021,
    7222661, 8434427, 9849503, 11502019, 13431661, 15685133, 18316643, 21389671,
    24978257, 29168903, 34062629, 39777391, 46450931, 54244103,
    100663319, 201326611, 402653189, 805306457, 1610612741,
    0]

/-- The first size that is not below `minsize`, or zero. -/
def sizeFor (minsize : Nat) : List Nat → Nat
  | [] => 0
  | cur_ht_size :: rest =>
    if cur_ht_size ≠ 0 ∧ cur_ht_size < minsize then sizeFor minsize rest else cur_ht_size

/-- The size before the first one, from the second on, that is not below `size`. -/
def priorSize (size : Nat) : List Nat → Nat
  | [] => 0
  | [prior_size] => prior_size
  | prior_size :: cur_ht_size :: rest =>
    if cur_ht_size ≠ 0 ∧ cur_ht_size < size then priorSize size (cur_ht_size :: rest)
    else prior_size

/-- The size of a table that is set up, or moved from an old one. -/
def newSize (ht_sizes : List Nat) (minsize : Nat) : Option (HashTable κ) → Nat
  | none => sizeFor minsize ht_sizes
  | some old_table =>
    if old_table.size / 2 < minsize then sizeFor minsize ht_sizes
    else max (priorSize old_table.size ht_sizes) old_table.initial_size

/-! ## Setting up and moving -/

/-- No entries, and the triggers for the size. -/
def HT_FIELDS_COMMON_INIT (table : HashTable κ) : HashTable κ :=
  { table with
    exp_trigger_size := table.size * HT_LOAD_FACTOR / 100
    cmp_trigger_size := table.size * HT_REHASH_FACTOR / 100
    count := 0
    del_count := 0 }

/-- Take the spare array of a table if it has the size, and free it if not. -/
def takeSpare (old_table : HashTable κ) (cur_ht_size : Nat) : Option Nat × HashTable κ :=
  if old_table.dont_keep_spare_table then (none, old_table)
  else if old_table.spare_base_size = cur_ht_size then
    (old_table.spare_base, { old_table with spare_base := none, spare_base_size := 0 })
  else if old_table.spare_base.isSome then
    (none, { old_table with spare_base := none, spare_base_size := 0 })
  else (none, old_table)

/-- A cleared array of a given size. -/
def HashTable.cleared (table : HashTable κ) (base cur_ht_size : Nat) : HashTable κ :=
  HT_FIELDS_COMMON_INIT
    { table with
      base := base
      spare_base := none
      spare_base_size := 0
      entries := fun _ => ⟨K.zeroed, 0⟩
      entry_passed_thru := fun _ => false
      size := cur_ht_size }

/-- Set up an array. The result has the old table too, which may have lost its
spare array; the first part is missing on `ERR_HTOFLOW` and on a memory error. -/
def INIT_HASHTAB_INTL (ht_sizes : List Nat) (malloc : Option Nat) (table : HashTable κ)
    (minsize : Nat) (old_table : Option (HashTable κ)) :
    Option (HashTable κ) × Option (HashTable κ) :=
  let cur_ht_size := newSize ht_sizes minsize old_table
  if cur_ht_size = 0 then (none, old_table)
  else
    match old_table with
    | none => (malloc.map fun base => table.cleared K base cur_ht_size, none)
    | some old_table =>
      let (spare, old_table) := takeSpare old_table cur_ht_size
      let newtable := (spare.or malloc).map fun base =>
        { table.cleared K base cur_ht_size with
          initial_size := old_table.initial_size
          dont_compact := old_table.dont_compact
          dont_keep_spare_table := old_table.dont_keep_spare_table }
      (newtable, some old_table)

/-- Set up a table for a caller. -/
def INIT_HASHTAB (ht_sizes : List Nat) (malloc : Option Nat) (table : HashTable κ) (minsize : Nat)
    (dont_compact dont_keep_spare_table : Bool) : Option (HashTable κ) :=
  let initial_size := sizeFor minsize ht_sizes
  let table := { table with
    initial_size := if initial_size ≠ 0 then initial_size else minsize
    dont_compact := dont_compact
    dont_keep_spare_table := dont_keep_spare_table }
  (INIT_HASHTAB_INTL K ht_sizes malloc table minsize none).1

/-- Add the entries of a table that are in use to another one. -/
def moveEntries [DecidableEq κ] (table newtable : HashTable κ) : Option (HashTable κ) :=
  if 0 < table.count then
    (List.range table.size).foldlM (fun newtable tabent =>
      if K.HTENT_VALID (table.entries tabent) then
        (addEntry K newtable (table.entries tabent).key (table.entries tabent).value).map Added.table
      else some newtable) newtable
  else some newtable

/-- Move the table to an array of at least `minsize` slots. The condition handler
leaves the table in its array when the new one cannot be set up. -/
def EXPAND_HASHTAB [DecidableEq κ] (ht_sizes : List Nat) (malloc : Option Nat)
    (table : HashTable κ) (minsize : Nat) : Option (HashTable κ) :=
  match INIT_HASHTAB_INTL K ht_sizes malloc table minsize (some table) with
  | (none, old_table) => some (old_table.getD table)
  | (some newtable, old_table) => do
    let table := old_table.getD table
    let newtable ← moveEntries K table newtable
    if newtable.dont_keep_spare_table then
      some { newtable with spare_base := none, spare_base_size := 0 }
    else some { newtable with spare_base := some table.base, spare_base_size := table.size }

/-- Move the entries to a table of the right size. -/
def COMPACT_HASHTAB [DecidableEq κ] (ht_sizes : List Nat) (malloc : Option Nat)
    (table : HashTable κ) : Option (HashTable κ) :=
  if !table.dont_compact then do
    let oldbase := table.base
    let table ← EXPAND_HASHTAB K ht_sizes malloc table (HT_REHASH_TABLE_SIZE table)
    if oldbase = table.base then some { table with cmp_trigger_size := table.size } else some table
  else some table

/-! ## Adding and deleting -/

/-- How an addition ends. -/
inductive AddOutcome where
  | returned (added : Bool) (tabent : Nat)
  /-- `raise_gtmmemory_error`: the table cannot grow and is full. -/
  | memoryError
deriving DecidableEq, Repr

/-- Add an entry unless it is there. -/
def ADD_HASHTAB [DecidableEq κ] (ht_sizes : List Nat) (malloc : Option Nat) (table : HashTable κ)
    (key : κ) (value : UInt64) : Option (AddOutcome × HashTable κ) := do
  let finish (table : HashTable κ) : Option (AddOutcome × HashTable κ) :=
    (addEntry K table key value).map fun a => (.returned a.added a.tabent, a.table)
  if table.exp_trigger_size ≤ table.count then
    let oldbase := table.base
    let table ← EXPAND_HASHTAB K ht_sizes malloc table (table.size + 1)
    if oldbase = table.base then
      if table.size ≤ table.exp_trigger_size then some (.memoryError, table)
      else finish { table with exp_trigger_size := table.size }
    else finish table
  else finish table

/-- Mark an entry as deleted. -/
def DELETE_HTENT (table : HashTable κ) (entry_num : Nat) : HashTable κ :=
  if table.entry_passed_thru entry_num then
    { table with
      entries := Function.update table.entries entry_num
        { table.entries entry_num with value := HT_DELETED_ENTRY }
      del_count := increment table.del_count
      count := decrement table.count }
  else
    { table with
      entries := Function.update table.entries entry_num
        (K.HTENT_MARK_EMPTY (table.entries entry_num))
      count := decrement table.count }

/-- Delete the entry that a caller points at. -/
def DELETE_HASHTAB_ENT (table : HashTable κ) (tabent : Nat) : HashTable κ := DELETE_HTENT K table tabent

/-- One slot of a deletion: an empty one ends it, the entry of the key is the one to
delete. -/
def RETURN_IF_DELETED [DecidableEq κ] (ht_sizes : List Nat) (malloc : Option Nat)
    (table : HashTable κ) (hkey : κ) (_ : Unit) (tabent : Nat) :
    Except (Option (Bool × HashTable κ)) Unit :=
  if K.HTENT_EMPTY (table.entries tabent) then .error (some (false, table))
  else if !HTENT_MARK_DELETED (table.entries tabent) && (table.entries tabent).key == hkey then
    let table := DELETE_HTENT K table tabent
    .error <| (if COMPACT_NEEDED table then COMPACT_HASHTAB K ht_sizes malloc table
      else some table).map fun table => (true, table)
  else .ok ()

/-- Delete a key; the result says whether it was there. -/
def DELETE_HASHTAB [DecidableEq κ] (ht_sizes : List Nat) (malloc : Option Nat)
    (table : HashTable κ) (key : κ) : Option (Bool × HashTable κ) := do
  match ← probe table.size (RETURN_IF_DELETED K ht_sizes malloc table key) (K.FIND_HASH key) () with
  | .error result => result
  | .ok () => some (false, table)

end Ydb
