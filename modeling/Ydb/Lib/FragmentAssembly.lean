import Mathlib.Algebra.GroupWithZero.Nat
import Ydb.Lib.ByteMemory

/-!
# Assembling a string from fragments in place

A string is assembled in a memory from new bytes and from fragments that stand in the same memory or in another
one. The fragments are moved one after the other, the first or the last one first. As long as none is moved onto
the source of one that is still to be moved, the string comes out right.
-/

namespace Ydb.Lib

/-- Bytes of the source, or bytes from elsewhere. -/
inductive Fragment where
  | source (addr len : Nat)
  | new (bytes : List UInt8)

namespace Fragment

/-- How many bytes there are. -/
def len : Fragment → Nat
  | source _ len => len
  | new bytes => bytes.length

/-- The bytes. -/
def content (mem : ByteMemory) : Fragment → List UInt8
  | source addr len => mem.read addr len
  | new bytes => bytes

/-- The source, if any, begins at `a` or behind it. -/
def StartsFrom (a : Nat) : Fragment → Prop
  | source addr _ => a ≤ addr
  | new _ => True

/-- The source, if any, ends at `a` or in front of it. -/
def EndsBy (a : Nat) : Fragment → Prop
  | source addr len => addr + len ≤ a
  | new _ => True

variable {mem mem' : ByteMemory} {fragment : Fragment} {a b : Nat}

@[simp] theorem length_content : (fragment.content mem).length = fragment.len := by
  cases fragment with
  | source addr len => exact ByteMemory.length_read
  | new bytes => rfl

theorem content_congr_from (starts : fragment.StartsFrom a) (same : ∀ x, a ≤ x → mem' x = mem x) :
    fragment.content mem' = fragment.content mem := by
  cases fragment with
  | source addr len => exact ByteMemory.read_congr fun i _ => same _ (Nat.le_trans starts (Nat.le_add_right _ _))
  | new bytes => rfl

theorem content_congr_upto (ends : fragment.EndsBy a) (same : ∀ x, x < a → mem' x = mem x) :
    fragment.content mem' = fragment.content mem := by
  cases fragment with
  | source addr len =>
    apply ByteMemory.read_congr
    intro i less
    exact same _ (Nat.lt_of_lt_of_le (Nat.add_lt_add_left less addr) ends)
  | new bytes => rfl

end Fragment

/-! ## Moving -/

/-- Move a fragment of the memory, or of another one. -/
def Fragment.move (other : Option ByteMemory) (fragment : Fragment) (ptr : Nat) (mem : ByteMemory) : ByteMemory :=
  mem.store ptr (fragment.content (other.getD mem))

/-- Copy the fragments from the first to the last. -/
def moveForward (other : Option ByteMemory) : List Fragment → Nat → ByteMemory → ByteMemory
  | [], _, mem => mem
  | fragment :: fragments, ptr, mem => moveForward other fragments (ptr + fragment.len) (fragment.move other ptr mem)

/-- Move fragments to the place that ends at `ptr`; the last fragment stands first. -/
def moveBackward (other : Option ByteMemory) : List Fragment → Nat → ByteMemory → ByteMemory
  | [], _, mem => mem
  | fragment :: fragments, ptr, mem =>
    moveBackward other fragments (ptr - fragment.len) (fragment.move other (ptr - fragment.len) mem)

/-- The bytes of all fragments. -/
def assembled (mem : ByteMemory) (fragments : List Fragment) : List UInt8 := fragments.flatMap (Fragment.content mem)

/-- The length of all fragments. -/
def totalLen (fragments : List Fragment) : Nat := (fragments.map Fragment.len).sum

/-- No fragment is moved onto the source of one behind it. -/
def ClearForward : List Fragment → Nat → Prop
  | [], _ => True
  | fragment :: fragments, ptr =>
    (∀ p ∈ fragments, p.StartsFrom (ptr + fragment.len)) ∧ ClearForward fragments (ptr + fragment.len)

/-- No fragment is moved onto the source of one in front of it; the last fragment stands first. -/
def ClearBackward : List Fragment → Nat → Prop
  | [], _ => True
  | fragment :: fragments, ptr =>
    (∀ p ∈ fragments, p.EndsBy (ptr - fragment.len)) ∧ ClearBackward fragments (ptr - fragment.len)

variable {other : Option ByteMemory} {mem mem' : ByteMemory} {fragment : Fragment} {fragments : List Fragment} {ptr a : Nat}

@[simp] theorem totalLen_nil : totalLen [] = 0 := rfl

@[simp] theorem totalLen_cons : totalLen (fragment :: fragments) = fragment.len + totalLen fragments := by
  simp [totalLen]

@[simp] theorem totalLen_append {front back : List Fragment} :
    totalLen (front ++ back) = totalLen front + totalLen back := by
  simp [totalLen]

theorem totalLen_reverse : totalLen fragments.reverse = totalLen fragments := by
  simp [totalLen]

@[simp] theorem assembled_cons : assembled mem (fragment :: fragments) = fragment.content mem ++ assembled mem fragments := rfl

@[simp] theorem assembled_nil : assembled mem [] = [] := rfl

theorem assembled_append {front back : List Fragment} :
    assembled mem (front ++ back) = assembled mem front ++ assembled mem back :=
  List.flatMap_append

@[simp] theorem length_assembled : (assembled mem fragments).length = totalLen fragments := by
  induction fragments with
  | nil => rfl
  | cons fragment fragments ih =>
    rw [assembled_cons, List.length_append, ih, Fragment.length_content, totalLen_cons]

theorem assembled_congr (same : ∀ p ∈ fragments, p.content mem' = p.content mem) :
    assembled mem' fragments = assembled mem fragments := by
  induction fragments with
  | nil => rfl
  | cons fragment fragments ih =>
    rw [assembled_cons, assembled_cons, same fragment List.mem_cons_self,
      ih fun p member => same p (List.mem_cons_of_mem _ member)]

theorem Fragment.move_of_outside (outside : a < ptr ∨ ptr + fragment.len ≤ a) : fragment.move other ptr mem a = mem a :=
  ByteMemory.store_of_outside (by rwa [length_content])

theorem Fragment.read_move : (fragment.move other ptr mem).read ptr fragment.len = fragment.content (other.getD mem) := by
  have stored := ByteMemory.read_store mem ptr (fragment.content (other.getD mem))
  rwa [length_content] at stored

/-- Nothing else changes. -/
theorem moveForward_of_outside (outside : a < ptr ∨ ptr + totalLen fragments ≤ a) :
    moveForward other fragments ptr mem a = mem a := by
  induction fragments generalizing ptr mem with
  | nil => rfl
  | cons fragment fragments ih =>
    rw [totalLen_cons] at outside
    rw [moveForward, ih (by omega), Fragment.move_of_outside (by omega)]

theorem moveBackward_of_outside (room : totalLen fragments ≤ ptr)
    (outside : a < ptr - totalLen fragments ∨ ptr ≤ a) : moveBackward other fragments ptr mem a = mem a := by
  induction fragments generalizing ptr mem with
  | nil => rfl
  | cons fragment fragments ih =>
    rw [totalLen_cons] at outside room
    rw [moveBackward, ih (by omega) (by omega), Fragment.move_of_outside (by omega)]

/-- What a move leaves of the sources. -/
theorem getD_move (other : Option ByteMemory) (same : ∀ x, a ≤ x → mem' x = mem x) :
    ∀ x, a ≤ x → (other.getD mem') x = (other.getD mem) x := by
  intro x above
  cases other with
  | none => exact same x above
  | some twin => rfl

/-- Moved forward, nothing is overwritten early. -/
theorem read_moveForward (clear : other = none → ClearForward fragments ptr) :
    (moveForward other fragments ptr mem).read ptr (totalLen fragments) = assembled (other.getD mem) fragments := by
  induction fragments generalizing ptr mem with
  | nil => rfl
  | cons fragment fragments ih =>
    have first : (moveForward other fragments (ptr + fragment.len) (fragment.move other ptr mem)).read ptr fragment.len =
        fragment.content (other.getD mem) := by
      rw [← Fragment.read_move]
      apply ByteMemory.read_congr
      intro i less
      exact moveForward_of_outside (by omega)
    have rest : assembled (other.getD (fragment.move other ptr mem)) fragments = assembled (other.getD mem) fragments := by
      apply assembled_congr
      intro p member
      cases other with
      | none =>
        apply Fragment.content_congr_from ((clear rfl).1 p member)
        intro x above
        exact Fragment.move_of_outside (.inr above)
      | some twin => rfl
    rw [totalLen_cons, moveForward, ByteMemory.read_add, first, assembled_cons,
      ih fun alone => (clear alone).2, rest]

/-- Moved backward, nothing is overwritten early. -/
theorem read_moveBackward (room : totalLen fragments ≤ ptr) (clear : other = none → ClearBackward fragments ptr) :
    (moveBackward other fragments ptr mem).read (ptr - totalLen fragments) (totalLen fragments) =
      assembled (other.getD mem) fragments.reverse := by
  induction fragments generalizing ptr mem with
  | nil => rfl
  | cons fragment fragments ih =>
    rw [totalLen_cons] at room
    have last : (moveBackward other fragments (ptr - fragment.len)
        (fragment.move other (ptr - fragment.len) mem)).read (ptr - fragment.len) fragment.len =
          fragment.content (other.getD mem) := by
      rw [← Fragment.read_move]
      apply ByteMemory.read_congr
      intro i less
      exact moveBackward_of_outside (by omega) (by omega)
    have rest : assembled (other.getD (fragment.move other (ptr - fragment.len) mem)) fragments.reverse =
        assembled (other.getD mem) fragments.reverse := by
      apply assembled_congr
      intro p member
      cases other with
      | none =>
        apply Fragment.content_congr_upto ((clear rfl).1 p (List.mem_reverse.mp member))
        intro x below
        exact Fragment.move_of_outside (.inl below)
      | some twin => rfl
    have start : ptr - (fragment.len + totalLen fragments) = ptr - fragment.len - totalLen fragments := by omega
    have next : ptr - fragment.len - totalLen fragments + totalLen fragments = ptr - fragment.len := by omega
    rw [totalLen_cons, moveBackward, Nat.add_comm, ByteMemory.read_add, Nat.add_comm (totalLen fragments), start,
      next, last, ih (by omega) fun alone => (clear alone).2, rest, List.reverse_cons,
      assembled_append]
    rw [assembled_cons, assembled_nil, List.append_nil]

end Ydb.Lib
