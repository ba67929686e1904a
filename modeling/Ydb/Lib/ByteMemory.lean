import Mathlib.Data.List.Basic

/-!
# Byte memory

A memory is a byte for each address. Strings are read from it, and blocks are
moved in it.
-/

namespace Ydb.Lib

abbrev ByteMemory := Nat → UInt8

variable (mem : ByteMemory)

/-- `len` bytes from `addr` on. -/
def ByteMemory.read (addr len : Nat) : List UInt8 := (List.range len).map fun i => mem (addr + i)

/-- Move a block; source and target may overlap. -/
def ByteMemory.memmove (target source length : Nat) : ByteMemory := fun a =>
  if target ≤ a ∧ a < target + length then mem (source + (a - target)) else mem a

/-- Write a string. -/
def ByteMemory.store (target : Nat) (bytes : List UInt8) : ByteMemory := fun a =>
  if target ≤ a ∧ a < target + bytes.length then bytes.getD (a - target) 0 else mem a

variable {mem}

@[simp] theorem ByteMemory.length_read {addr len : Nat} : (mem.read addr len).length = len := by
  simp [read]

/-- The byte behind a known beginning of what is read. -/
theorem ByteMemory.of_read {addr len : Nat} {front back : List UInt8} {ch : UInt8}
    (bytes : mem.read addr len = front ++ ch :: back) : mem (addr + front.length) = ch := by
  have at' := congrArg (fun l => l[front.length]?) bytes
  have inside : front.length < len := by
    have size := congrArg List.length bytes
    simp only [length_read, List.length_append, List.length_cons] at size
    omega
  simpa [read, inside] using at'

/-- The bytes of a known beginning of what is read. -/
theorem ByteMemory.of_read_append {addr len k : Nat} {front back : List UInt8}
    (bytes : mem.read addr len = front ++ back) (inside : k < front.length) :
    mem (addr + k) = front[k] := by
  have split : front ++ back = front.take k ++ front[k] :: (front.drop (k + 1) ++ back) := by
    rw [← List.cons_append, ← List.append_assoc, List.getElem_cons_drop,
      List.take_append_drop]
  have found := of_read (bytes.trans split)
  rwa [List.length_take, Nat.min_eq_left (Nat.le_of_lt inside)] at found

theorem ByteMemory.read_add (addr len more : Nat) :
    mem.read addr (len + more) = mem.read addr len ++ mem.read (addr + len) more := by
  simp [read, List.range_add, Nat.add_assoc]

/-- Consecutive strings of one length. -/
theorem ByteMemory.read_mul (addr len count : Nat) :
    mem.read addr (len * count) = (List.range count).flatMap fun i => mem.read (addr + len * i) len := by
  induction count with
  | zero => rfl
  | succ count ih =>
    rw [Nat.mul_succ, read_add, ih, List.range_succ, List.flatMap_append,
      List.flatMap_singleton]

theorem ByteMemory.read_congr {mem' : ByteMemory} {addr addr' len : Nat}
    (same : ∀ i < len, mem' (addr' + i) = mem (addr + i)) : mem'.read addr' len = mem.read addr len := by
  apply List.map_congr_left
  intro i member
  exact same i (List.mem_range.mp member)

/-- What is read elsewhere does not change. -/
theorem ByteMemory.read_memmove_of_apart {target source length addr len : Nat}
    (apart : addr + len ≤ target ∨ target + length ≤ addr) :
    (mem.memmove target source length).read addr len = mem.read addr len := by
  apply read_congr
  intro i inside
  rw [memmove, if_neg (by omega)]

/-- A string inside a block moves with it. -/
theorem ByteMemory.read_memmove_inside {target source length addr len : Nat}
    (from' : source ≤ addr) (upto : addr + len ≤ source + length) :
    (mem.memmove target source length).read (addr - source + target) len = mem.read addr len := by
  apply read_congr
  intro i inside
  rw [memmove, if_pos (by omega)]
  congr 1
  omega

theorem ByteMemory.memmove_of_outside {target source length a : Nat}
    (outside : a < target ∨ target + length ≤ a) : mem.memmove target source length a = mem a := by
  rw [memmove, if_neg (by omega)]

theorem ByteMemory.store_of_outside {target a : Nat} {bytes : List UInt8}
    (outside : a < target ∨ target + bytes.length ≤ a) : mem.store target bytes a = mem a := by
  rw [store, if_neg (by omega)]

theorem ByteMemory.read_getElem? {addr len i : Nat} (inside : i < len) :
    (mem.read addr len)[i]? = some (mem (addr + i)) := by
  simp [read, inside]

theorem ByteMemory.read_take {addr len n : Nat} (shorter : n ≤ len) :
    mem.read addr n = (mem.read addr len).take n := by
  obtain ⟨more, rfl⟩ := Nat.exists_eq_add_of_le shorter
  rw [read_add, List.take_left' length_read]

theorem ByteMemory.read_drop (mem : ByteMemory) (addr : Nat) {len n : Nat} (shorter : n ≤ len) :
    mem.read (addr + n) (len - n) = (mem.read addr len).drop n := by
  obtain ⟨more, rfl⟩ := Nat.exists_eq_add_of_le shorter
  rw [read_add, List.drop_left' length_read, Nat.add_sub_cancel_left]

theorem ByteMemory.read_store_before {target addr len : Nat} {bytes : List UInt8}
    (before : addr + len ≤ target) : (mem.store target bytes).read addr len = mem.read addr len := by
  apply read_congr
  intro i less
  exact store_of_outside (.inl (by omega))

theorem ByteMemory.read_store (mem : ByteMemory) (target : Nat) (bytes : List UInt8) :
    (mem.store target bytes).read target bytes.length = bytes := by
  apply List.ext_getElem length_read
  intro i inside _
  rw [length_read] at inside
  simp [read, store, inside]

end Ydb.Lib
