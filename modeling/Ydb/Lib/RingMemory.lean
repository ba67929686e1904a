import Ydb.Lib.ByteMemory
import Ydb.Lib.RingOffset

/-!
# Strings in a ring of bytes

A ring of `size` bytes holds the byte at address `a` in the place `a % size`. A record is
written into it piece by piece. Its image gives each byte that was written, and nothing for
the bytes that were skipped.
-/

namespace Ydb.Lib

/-- Write a string at consecutive addresses of a ring. -/
def ByteMemory.ringStore (mem : ByteMemory) (size start : Nat) (bytes : List UInt8) : ByteMemory :=
  fun a =>
    if a < size ∧ ringOffset size (start % size) a < bytes.length then
      bytes.getD (ringOffset size (start % size) a) 0
    else mem a

/-- The address does not have the place of one of the `len` addresses from `start` on. -/
def RingApart (size start len a : Nat) : Prop := ∀ k < len, a ≠ (start + k) % size

/-- What was written from `start` on is the image, and nothing else was written. -/
structure RingWritten (size start : Nat) (before after : ByteMemory) (image : List (Option UInt8)) :
    Prop where
  written : ∀ k b, image[k]? = some (some b) → after ((start + k) % size) = b
  apart : ∀ a, RingApart size start image.length a → after a = before a

section Stores

variable {mem : ByteMemory} {size start : Nat} {bytes : List UInt8}

theorem ringOffset_place (some : 0 < size) {k : Nat} (less : k < size) :
    ringOffset size (start % size) ((start + k) % size) = k := by
  rw [← Nat.mod_add_mod]
  exact ringOffset_add (Nat.mod_lt start some) less

theorem ByteMemory.ringStore_place (fits : bytes.length ≤ size) {k : Nat} (inside : k < bytes.length) :
    mem.ringStore size start bytes ((start + k) % size) = bytes[k] := by
  have less : k < size := Nat.lt_of_lt_of_le inside fits
  have some : 0 < size := Nat.zero_lt_of_lt less
  have below : (start + k) % size < size := Nat.mod_lt _ some
  rw [ringStore, ringOffset_place some less, if_pos ⟨below, inside⟩]
  exact (List.getElem_eq_getD 0).symm

theorem ByteMemory.ringStore_apart {a : Nat} (apart : RingApart size start bytes.length a) :
    mem.ringStore size start bytes a = mem a := by
  unfold ringStore
  split
  · rename_i written
    obtain ⟨below, inside⟩ := written
    have some : 0 < size := Nat.zero_lt_of_lt below
    have place := ring_add_offset (Nat.mod_lt start some) below
    rw [Nat.mod_add_mod] at place
    exact absurd place.symm (apart _ inside)
  · rfl

/-- A memory that holds the bytes, and is the old one elsewhere. -/
theorem ByteMemory.eq_ringStore {after : ByteMemory} (fits : bytes.length ≤ size)
    (written : ∀ k (inside : k < bytes.length), after ((start + k) % size) = bytes[k])
    (elsewhere : ∀ a, RingApart size start bytes.length a → after a = mem a) :
    after = mem.ringStore size start bytes := by
  funext a
  by_cases apart : RingApart size start bytes.length a
  · rw [elsewhere a apart, ringStore_apart apart]
  · unfold RingApart at apart
    push Not at apart
    obtain ⟨k, inside, rfl⟩ := apart
    rw [written k inside, ringStore_place fits inside]

/-- Only the place of the start counts. -/
theorem ByteMemory.ringStore_mod (mem : ByteMemory) (size start : Nat) (bytes : List UInt8) :
    mem.ringStore size (start % size) bytes = mem.ringStore size start bytes := by
  unfold ringStore
  rw [Nat.mod_mod]

/-- A string that does not reach over the end. -/
theorem ByteMemory.store_eq_ringStore (fits : start + bytes.length ≤ size) :
    mem.store start bytes = mem.ringStore size start bytes := by
  apply eq_ringStore (by omega)
  · intro k inside
    have inside' : start ≤ start + k ∧ start + k < start + bytes.length := by omega
    rw [Nat.mod_eq_of_lt (by omega), store, if_pos inside', Nat.add_sub_cancel_left]
    exact (List.getElem_eq_getD 0).symm
  · intro a apart
    apply store_of_outside
    by_contra inside
    apply apart (a - start) (by omega)
    rw [Nat.mod_eq_of_lt (by omega)]
    omega

/-- A string that reaches over the end is written in two parts. -/
theorem ByteMemory.store_store_eq_ringStore {front back : List UInt8} (atEnd : start + front.length = size)
    (fits : front.length + back.length ≤ size) (some : 0 < front.length) :
    (mem.store start front).store 0 back = mem.ringStore size start (front ++ back) := by
  have length : (front ++ back).length = front.length + back.length := List.length_append
  apply eq_ringStore (by omega)
  · intro k inside
    by_cases first : k < front.length
    · have below : start + k < size := by omega
      have outside : start + k < 0 ∨ 0 + back.length ≤ start + k := by omega
      have inside' : start ≤ start + k ∧ start + k < start + front.length := by omega
      rw [Nat.mod_eq_of_lt below, store_of_outside outside, store, if_pos inside',
        Nat.add_sub_cancel_left, List.getElem_append_left first]
      exact (List.getElem_eq_getD 0).symm
    · have turn : start + k = k - front.length + size := by omega
      have inside' : 0 ≤ k - front.length ∧ k - front.length < 0 + back.length := by omega
      rw [turn, Nat.add_mod_right, Nat.mod_eq_of_lt (by omega), store, if_pos inside', Nat.sub_zero,
        List.getElem_append_right (by omega)]
      exact (List.getElem_eq_getD 0).symm
  · intro a apart
    have second : a < 0 ∨ 0 + back.length ≤ a := by
      by_contra inside
      apply apart (a + front.length) (by omega)
      have turn : start + (a + front.length) = a + size := by omega
      rw [turn, Nat.add_mod_right, Nat.mod_eq_of_lt (by omega)]
    have first : a < start ∨ start + front.length ≤ a := by
      by_contra inside
      apply apart (a - start) (by omega)
      rw [Nat.mod_eq_of_lt (by omega)]
      omega
    rw [store_of_outside second, store_of_outside first]

end Stores

namespace RingWritten

variable {size start : Nat} {before after : ByteMemory} {image : List (Option UInt8)}

theorem nil (size start : Nat) (mem : ByteMemory) : RingWritten size start mem mem [] where
  written := by
    intro k b found
    cases found
  apart := fun _ _ => rfl

/-- Two addresses less than a turn apart have different places. -/
theorem places_ne {k l : Nat} (differ : k ≠ l) (first : k < size) (second : l < size) :
    (start + k) % size ≠ (start + l) % size := by
  intro same
  apply differ
  have some : 0 < size := Nat.zero_lt_of_lt first
  have placed : ringOffset size (start % size) ((start + k) % size) = k := ringOffset_place some first
  rw [← placed, same, ringOffset_place some second]

/-- The next piece. -/
theorem push (holds : RingWritten size start before after image) (bytes : List UInt8)
    (fits : image.length + bytes.length ≤ size) :
    RingWritten size start before (after.ringStore size (start + image.length) bytes)
      (image ++ bytes.map some) where
  written := by
    intro k b found
    by_cases first : k < image.length
    · rw [List.getElem?_append_left first] at found
      rw [ByteMemory.ringStore_apart]
      · exact holds.written k b found
      · intro l inside
        rw [Nat.add_assoc]
        exact places_ne (by omega) (by omega) (by omega)
    · rw [List.getElem?_append_right (by omega), List.getElem?_map, Option.map_eq_some_iff] at found
      obtain ⟨b', found, same⟩ := found
      obtain ⟨inside, value⟩ := List.getElem?_eq_some_iff.mp found
      have turn : start + k = start + image.length + (k - image.length) := by omega
      rw [turn, ByteMemory.ringStore_place (by omega) inside, value]
      exact Option.some.inj same
  apart := by
    intro a apart
    rw [List.length_append, List.length_map] at apart
    rw [ByteMemory.ringStore_apart]
    · exact holds.apart a fun k less => apart k (by omega)
    · intro k less
      rw [Nat.add_assoc]
      exact apart (image.length + k) (by omega)

/-- Skip some bytes. -/
theorem skip (holds : RingWritten size start before after image) (n : Nat) :
    RingWritten size start before after (image ++ List.replicate n none) where
  written := by
    intro k b found
    by_cases first : k < image.length
    · rw [List.getElem?_append_left first] at found
      exact holds.written k b found
    · rw [List.getElem?_append_right (by omega), List.getElem?_replicate] at found
      split at found <;> cases found
  apart := by
    intro a apart
    rw [List.length_append] at apart
    exact holds.apart a fun k less => apart k (by omega)

end RingWritten

end Ydb.Lib
