import Ydb.HashTableSizes

/-!
# Searching a hash table

The slots that a search visits are the stations of a path that goes once round
the table. A table represents a map when every key of the map is on its path
behind marked slots, so that a search along the path decides whether the key is
there.
-/

namespace Ydb

open Lib

/-! ## The path of a search -/

/-- The slot that a search comes to after `i` collisions. -/
def probePath (prime hash i : Nat) : Nat := (hash + i * SET_REHASH_FACTOR hash prime) % prime

theorem SET_REHASH_FACTOR_lt {prime : Nat} (isPrime : prime.Prime) (hash : Nat) :
    SET_REHASH_FACTOR hash prime < prime := by
  have remainder : hash % (prime - 1) < prime - 1 :=
    Nat.mod_lt _ (Nat.sub_pos_of_lt isPrime.one_lt)
  rw [SET_REHASH_FACTOR]
  omega

theorem probePath_fullCycle {prime : Nat} (isPrime : prime.Prime) (hash : Nat) :
    FullCycle prime (probePath prime hash) :=
  fullCycle_of_prime isPrime (by rw [SET_REHASH_FACTOR]; omega)
    (SET_REHASH_FACTOR_lt isPrime hash) hash

theorem probePath_succ {prime : Nat} (isPrime : prime.Prime) (hash i : Nat) :
    SET_REHASH_INDEX (probePath prime hash i) (SET_REHASH_FACTOR hash prime) prime =
      probePath prime hash (i + 1) := by
  have bound : probePath prime hash i < prime := Nat.mod_lt _ isPrime.pos
  have short := SET_REHASH_FACTOR_lt isPrime hash
  have next : probePath prime hash (i + 1) =
      (probePath prime hash i + SET_REHASH_FACTOR hash prime) % prime := by
    rw [probePath, probePath, Nat.mod_add_mod]
    congr 1
    ring
  rw [SET_REHASH_INDEX, next]
  split
  next wraps =>
    rw [Nat.mod_eq_sub_mod wraps, Nat.mod_eq_of_lt]
    omega
  next inside => rw [Nat.mod_eq_of_lt (Nat.lt_of_not_le inside)]

theorem probePath_return (prime hash : Nat) : probePath prime hash prime = probePath prime hash 0 := by
  rw [probePath, probePath, Nat.zero_mul, Nat.add_zero, Nat.add_mul_mod_self_left]

/-- The rule for a search: an invariant of the stations passed holds after a whole
round, unless a station returns. -/
theorem probe_rule {σ ρ : Type} {prime : Nat} (isPrime : prime.Prime) (step : σ → Nat → Except ρ σ)
    (hash : Nat) (start : σ) (Invariant : Nat → σ → Prop) (Result : ρ → Prop)
    (initial : Invariant 0 start)
    (passes : ∀ i < prime, ∀ s s', Invariant i s → step s (probePath prime hash i) = .ok s' →
      Invariant (i + 1) s')
    (returns : ∀ i < prime, ∀ s r, Invariant i s → step s (probePath prime hash i) = .error r →
      Result r) :
    (∃ r, probe prime step hash start = some (.error r) ∧ Result r) ∨
      ∃ s, probe prime step hash start = some (.ok s) ∧ Invariant prime s := by
  have cycle := probePath_fullCycle isPrime hash
  have first : hash % prime = probePath prime hash 0 := by
    rw [probePath, Nat.zero_mul, Nat.add_zero]
  have loop : ∀ rounds i s, 0 < i → i + rounds = prime + 1 → i ≤ prime → Invariant i s →
      (i < prime) → (∃ r, probeLoop prime step (SET_REHASH_FACTOR hash prime)
          (probePath prime hash 0) rounds (probePath prime hash i) s = some (.error r) ∧ Result r) ∨
        ∃ s', probeLoop prime step (SET_REHASH_FACTOR hash prime) (probePath prime hash 0) rounds
          (probePath prime hash i) s = some (.ok s') ∧ Invariant prime s' := by
    intro rounds
    induction rounds with
    | zero =>
      intro i s _ total atMost
      omega
    | succ rounds ih =>
      intro i s positive total _ invariant below
      rw [probeLoop]
      cases result : step s (probePath prime hash i) with
      | error r => exact .inl ⟨r, rfl, returns i below s r invariant result⟩
      | ok s' =>
        have invariant' := passes i below s s' invariant result
        dsimp only
        rw [probePath_succ isPrime]
        by_cases last : i + 1 = prime
        · rw [last, probePath_return, if_neg (by simp)]
          exact .inr ⟨s', rfl, last ▸ invariant'⟩
        · have more : i + 1 < prime := by omega
          have other : probePath prime hash (i + 1) ≠ probePath prime hash 0 := by
            intro same
            have none := cycle.injective _ _ more isPrime.pos same
            omega
          rw [if_pos other]
          exact ih (i + 1) s' (by omega) (by omega) (by omega) invariant' more
  rw [probe, first]
  cases result : step start (probePath prime hash 0) with
  | error r => exact .inl ⟨r, rfl, returns 0 isPrime.pos start r initial result⟩
  | ok s =>
    have invariant := passes 0 isPrime.pos start s initial result
    dsimp only
    rw [probePath_succ isPrime]
    exact loop prime 1 s Nat.one_pos (by omega) isPrime.one_lt.le invariant isPrime.one_lt

/-! ## Slots -/

variable {κ : Type} (K : KeyType κ)

/-- What a slot holds. -/
def KeyType.slot (e : HtEnt κ) : Slot κ UInt64 :=
  if K.HTENT_EMPTY e then .empty else if HTENT_MARK_DELETED e then .deleted
  else .live e.key e.value

/-- The slots of a table. -/
def HashTable.slots (table : HashTable κ) : Nat → Slot κ UInt64 := K.slot ∘ table.entries

/-- Whether a slot is in use. -/
def slotLive : Slot κ UInt64 → Bool
  | .live _ _ => true
  | _ => false

/-- Whether a slot was in use. -/
def slotDeleted : Slot κ UInt64 → Bool
  | .deleted => true
  | _ => false

/-- A pair that an entry can hold: it looks neither empty nor deleted. -/
def KeyType.Storable (key : κ) (value : UInt64) : Prop :=
  K.HTENT_EMPTY ⟨key, value⟩ = false ∧ value ≠ HT_DELETED_ENTRY

variable {K}

namespace KeyType

theorem slot_empty {e : HtEnt κ} : K.slot e = .empty ↔ K.HTENT_EMPTY e = true := by
  rw [slot]
  split
  · simp [*]
  · split <;> simp [*]

theorem slot_deleted {e : HtEnt κ} :
    K.slot e = .deleted ↔ K.HTENT_EMPTY e = false ∧ HTENT_MARK_DELETED e = true := by
  rw [slot]
  split
  · simp [*]
  · split <;> simp [*]

theorem slot_live {e : HtEnt κ} {key : κ} {value : UInt64} :
    K.slot e = .live key value ↔
      e = ⟨key, value⟩ ∧ K.HTENT_EMPTY e = false ∧ HTENT_MARK_DELETED e = false := by
  obtain ⟨k, v⟩ := e
  rw [slot]
  split
  · simp [*]
  · split <;> simp [*]

theorem Storable.slot_eq {key : κ} {value : UInt64} (storable : K.Storable key value) :
    K.slot ⟨key, value⟩ = .live key value := by
  apply slot_live.mpr
  refine ⟨rfl, storable.1, ?_⟩
  rw [HTENT_MARK_DELETED, beq_eq_false_iff_ne]
  exact storable.2.symm

theorem storable_of_slot {e : HtEnt κ} {key : κ} {value : UInt64}
    (live : K.slot e = .live key value) : K.Storable key value := by
  obtain ⟨rfl, nonempty, unmarked⟩ := slot_live.mp live
  rw [HTENT_MARK_DELETED, beq_eq_false_iff_ne] at unmarked
  exact ⟨nonempty, unmarked.symm⟩

theorem valid_iff {e : HtEnt κ} : K.HTENT_VALID e = true ↔ K.slot e = .live e.key e.value := by
  rw [slot_live, HTENT_VALID, HTENT_MARK_DELETED]
  simp

end KeyType

/-! ## Representation -/

/-- The path of a key in a table of a given size. -/
def KeyType.path (K : KeyType κ) (size : Nat) (key : κ) : Nat → Nat :=
  probePath size (K.FIND_HASH key)

/-- The table represents a map. Only entries that were never deleted are counted
as such: no empty entry carries the mark of a deleted one. -/
structure HashTable.Represents (K : KeyType κ) (table : HashTable κ) (m : κ → Option UInt64) :
    Prop where
  prime : table.size.Prime
  bound : table.size < 2 ^ 31
  searchable : Searchable table.size (K.path table.size) (table.slots K) table.entry_passed_thru
  holds : ∀ key value, m key = some value ↔ Holds table.size (table.slots K) key value
  count : table.count = countSlots slotLive table.size (table.slots K)
  del_count : table.del_count = countSlots slotDeleted table.size (table.slots K)
  unmarked : ∀ i, K.HTENT_EMPTY (table.entries i) = true →
    HTENT_MARK_DELETED (table.entries i) = false

section Represents

variable {table : HashTable κ} {m : κ → Option UInt64}

theorem HashTable.slots_apply (table : HashTable κ) (i : Nat) :
    table.slots K i = K.slot (table.entries i) := rfl

theorem RETURN_IF_LOOKUP_DONE_eq [DecidableEq κ] (hkey : κ) (tabent : Nat) :
    RETURN_IF_LOOKUP_DONE K table hkey () tabent =
      match table.slots K tabent with
      | .empty => .error none
      | .deleted => .ok ()
      | .live key _ => if key = hkey then .error (some tabent) else .ok () := by
  rw [RETURN_IF_LOOKUP_DONE, HashTable.slots_apply, KeyType.slot]
  cases K.HTENT_EMPTY (table.entries tabent) <;>
    cases HTENT_MARK_DELETED (table.entries tabent) <;> simp

namespace HashTable.Represents

variable (rep : table.Represents K m)

include rep

theorem cycle (key : κ) : FullCycle table.size (K.path table.size key) :=
  probePath_fullCycle rep.prime _

theorem absent {key : κ} (notHeld : ∀ value, ¬ Holds table.size (table.slots K) key value) :
    m key = none := by
  apply Option.eq_none_iff_forall_ne_some.mpr
  intro value isThere
  exact notHeld value ((rep.holds key value).mp isThere)

theorem notHeld {key : κ} (absent : m key = none) (value : UInt64) :
    ¬ Holds table.size (table.slots K) key value := by
  intro held
  rw [(rep.holds key value).mpr held] at absent
  cases absent

theorem count_le : table.count ≤ table.size := rep.count ▸ countSlots_le ..

/-- The search for a key returns its entry. -/
theorem LOOKUP_HASHTAB_spec [DecidableEq κ] (key : κ) :
    ∃ tabent, LOOKUP_HASHTAB K table key = some tabent ∧
      (∀ i, tabent = some i → i < table.size ∧ ∃ value, m key = some value ∧
        table.slots K i = .live key value) ∧ (tabent = none → m key = none) := by
  have searched := probe_rule rep.prime (RETURN_IF_LOOKUP_DONE K table key) (K.FIND_HASH key) ()
    (fun i _ => ∀ j < i, ∀ value, table.slots K (K.path table.size key j) ≠ .live key value)
    (fun tabent => (∀ i, tabent = some i → i < table.size ∧ ∃ value, m key = some value ∧
        table.slots K i = .live key value) ∧ (tabent = none → m key = none))
    (by intro j impossible; omega) ?_ ?_
  · rw [LOOKUP_HASHTAB]
    rcases searched with ⟨tabent, done, result⟩ | ⟨_, done, invariant⟩
    · rw [done]
      exact ⟨tabent, rfl, result⟩
    · rw [done]
      refine ⟨none, rfl, nofun, fun _ => rep.absent ?_⟩
      exact rep.searchable.absent_of_cycle invariant
  · intro i _ _ _ invariant passed j below value live
    rcases Nat.lt_succ_iff_lt_or_eq.mp below with earlier | rfl
    · exact invariant j earlier value live
    · rw [RETURN_IF_LOOKUP_DONE_eq] at passed
      rw [KeyType.path] at live
      simp [live] at passed
  · intro i bound _ tabent invariant stopped
    rw [RETURN_IF_LOOKUP_DONE_eq] at stopped
    split at stopped
    next empty =>
      cases stopped
      exact ⟨nofun, fun _ => rep.absent (rep.searchable.absent_of_empty invariant empty)⟩
    next => cases stopped
    next key' value live =>
      split at stopped
      next sameKey =>
        cases stopped
        subst sameKey
        refine ⟨?_, nofun⟩
        rintro _ ⟨⟩
        have inTable := (rep.cycle key').bounded i
        exact ⟨inTable, value, (rep.holds key' value).mpr ⟨_, inTable, live⟩, live⟩
      next => cases stopped

end HashTable.Represents

end Represents

end Ydb
