import Ydb.Lib.ByteMemory
import Ydb.Lib.DoublingRows
import Ydb.Lib.LinkedChain
import Ydb.Lib.MachineWords

/-!
# Buddy lists

A container of elements of one size, kept in rows that double in size. Elements are
taken at the end and given back at the end; or they are given back singly, and then
linked through their first bytes.
-/

namespace Ydb

open Lib

/-- The blocks that were allocated, each with its size, the latest first. -/
abbrev Blocks := List (Nat × Nat)

/-- A container. Null pointers are zero; `ptrArrayCurr` is an index of `ptrArray`. -/
structure BuddyList where
  ptrArray : Nat → Nat
  elemSize : Int
  initAlloc : Int
  initAllocBits : Nat
  nElems : Int
  cumulMaxElems : Int
  ptrArrayCurr : Nat
  nextFreePtr : Int
  free_que : Nat

/-- The number of pointers to rows. -/
def ptrArrayLen : Nat := 63 + 2

/-- Clear the lowest bits up to the highest one. -/
def floorToPower (temp : Nat) : Nat :=
  if h : temp &&& (temp - 1) ≠ 0 then floorToPower (temp &&& (temp - 1)) else temp
termination_by temp
decreasing_by
  have bounded : temp &&& (temp - 1) ≤ temp - 1 := Nat.and_le_right
  have nonzero : temp ≠ 0 := by
    rintro rfl
    exact h rfl
  omega

/-- The initial allocation, made a power of two. -/
def powerOfTwo (initAlloc : Nat) : Nat :=
  let temp := floorToPower initAlloc
  if initAlloc ≠ temp then temp <<< 1 else initAlloc

/-- The first shift, from a given one on, that leaves nothing. -/
def shiftCount (index i : Nat) : Nat :=
  if h : index >>> i ≠ 0 then shiftCount index (i + 1) else i
termination_by index - i
decreasing_by
  have power : i < 2 ^ i := Nat.lt_two_pow_self
  have reached : 2 ^ i ≤ index := by
    by_contra small
    exact h (by rw [Nat.shiftRight_eq_div_pow, Nat.div_eq_of_lt (by omega)])
  omega

/-- The size of so many elements, as `size_t`. -/
def allocSize (elems elemSize : Int) : Nat := (elems * elemSize % 2 ^ 64).toNat

variable (malloc : Blocks → Nat → Option Nat)

/-- Allocate a block; none if there is no memory, and the caller does not return. -/
def Blocks.alloc (blocks : Blocks) (size : Nat) : Option (Nat × Blocks) :=
  (malloc blocks size).map fun row => (row, (row, size) :: blocks)

/-- Allocate the first row and the pointers to rows. -/
def initialize_list (blocks : Blocks) (elemSize initAlloc : Nat) : Option (BuddyList × Blocks) :=
  let elemSize := int4Value ((elemSize + 7) / 8 * 8)
  let initAlloc := powerOfTwo (if initAlloc = 0 then 1 else initAlloc)
  let i := shiftCount initAlloc 0
  let initAlloc := int4Value initAlloc
  (blocks.alloc malloc (allocSize initAlloc elemSize)).map fun (row, blocks) =>
    ({ ptrArray := fun r => if r = 0 then row else 0
       elemSize := elemSize
       initAlloc := initAlloc
       initAllocBits := i - 1
       nElems := 0
       cumulMaxElems := initAlloc
       ptrArrayCurr := 0
       nextFreePtr := row
       free_que := 0 }, blocks)

/-- Step back by whole rows while more elements are to be freed than the row holds:
the row reached, what is left to be freed, the elements in the row, and the elements up
to its end. -/
def freeRows (initAlloc : Int) :
    Nat → Int → Int → Int → Int → Nat × Int × Int × Int
  | 0, numLeft, rowElemsLeft, _, cumulMaxElems => (0, numLeft, rowElemsLeft, cumulMaxElems)
  | r + 1, numLeft, rowElemsLeft, rowElemsMax, cumulMaxElems =>
    if numLeft ≥ rowElemsLeft then
      let rowElemsMax' := if rowElemsMax ≠ initAlloc then rowElemsMax / 2 else rowElemsMax
      freeRows initAlloc r (int4Value (numLeft - rowElemsLeft)) rowElemsMax' rowElemsMax'
        (int4Value (cumulMaxElems - rowElemsMax))
    else (r + 1, numLeft, rowElemsLeft, cumulMaxElems)

/-- Give the last elements back, at most all. -/
def free_last_n_elements (list : BuddyList) (num : Int) : Bool × BuddyList :=
  if list.nElems ≥ num then
    let rowElemsLeft := (int4Value (list.nextFreePtr - list.ptrArray list.ptrArrayCurr)).tdiv list.elemSize
    let rowElemsMax := int4Value (list.nElems - rowElemsLeft)
    let (ptrArrayCurr, numLeft, rowElemsLeft, cumulMaxElems) :=
      freeRows list.initAlloc list.ptrArrayCurr num rowElemsLeft rowElemsMax list.cumulMaxElems
    (true, { list with
      cumulMaxElems := cumulMaxElems
      nElems := int4Value (list.nElems - num)
      ptrArrayCurr := ptrArrayCurr
      nextFreePtr := list.ptrArray ptrArrayCurr +
        int4Value (list.elemSize * int4Value (rowElemsLeft - numLeft)) })
  else (false, list)

/-- Open rows until one has room. There are `left` pointers to rows left; none if they
do not suffice, or if there is no memory. -/
def openRows (nElements : Int) :
    Nat → BuddyList → Blocks → Option (Nat × BuddyList × Blocks)
  | 0, _, _ => none
  | left + 1, list, blocks =>
    let curr := list.ptrArrayCurr + 1
    let row :=
      if list.ptrArray curr = 0 then blocks.alloc malloc (allocSize list.cumulMaxElems list.elemSize)
      else some (list.ptrArray curr, blocks)
    row.bind fun (row, blocks) =>
      let nElems := list.cumulMaxElems
      let list := { list with
        ptrArray := fun r => if r = curr then row else list.ptrArray r
        ptrArrayCurr := curr
        cumulMaxElems := int4Value (list.cumulMaxElems * 2) }
      if int4Value (nElems + nElements) > list.cumulMaxElems then openRows nElements left list blocks
      else some (row, { list with
        nElems := int4Value (nElems + nElements)
        nextFreePtr := row + int4Value (list.elemSize * nElements) }, blocks)

/-- Take elements that stand together in a row. -/
def get_new_element (list : BuddyList) (blocks : Blocks) (nElements : Int) :
    Option (Int × BuddyList × Blocks) :=
  if nElements ≤ 0 then none
  else if int4Value (list.nElems + nElements) ≤ list.cumulMaxElems then
    some (list.nextFreePtr, { list with
      nextFreePtr := list.nextFreePtr + int4Value (nElements * list.elemSize)
      nElems := int4Value (list.nElems + nElements) }, blocks)
  else (openRows malloc nElements (ptrArrayLen - 1 - list.ptrArrayCurr) list blocks).map
    fun (row, list, blocks) => ((row : Int), list, blocks)

/-- The element with an index; null if there is none. -/
def find_element (list : BuddyList) (index : Int) : Option Int :=
  if index ≥ list.nElems then none
  else
    let i := shiftCount index.toNat list.initAllocBits - list.initAllocBits
    let start := if i ≠ 0 then int4Value (2 ^ (i - 1)) else 0
    some (list.ptrArray i +
      int4Value (list.elemSize * int4Value (index - int4Value (list.initAlloc * start))))

/-- A pointer stored in memory. -/
def loadPointer (mem : ByteMemory) (addr : Nat) : Nat := (word (mem.read addr 8)).toNat

/-- Store eight bytes. -/
def storePointer (mem : ByteMemory) (addr value : Nat) : ByteMemory :=
  mem.store addr (wordBytes (BitVec.ofNat 64 value))

/-- Take the element freed last, else a new one. -/
def get_new_free_element (list : BuddyList) (blocks : Blocks) (mem : ByteMemory) :
    Option (Int × BuddyList × Blocks) :=
  if list.free_que ≠ 0 then
    some (list.free_que, { list with free_que := loadPointer mem list.free_que }, blocks)
  else get_new_element malloc list blocks 1

/-- Put an element on the free queue. -/
def free_element (list : BuddyList) (mem : ByteMemory) (elem : Nat) : BuddyList × ByteMemory :=
  ({ list with free_que := elem }, storePointer mem elem list.free_que)

/-- Copy rows: the bytes copied and the memory. There are `left` pointers to rows left. -/
def copyRows (list : BuddyList) :
    Nat → Nat → Int → Int → Int → Nat → Nat → ByteMemory → Option (Nat × ByteMemory)
  | 0, _, _, _, _, _, _, _ => none
  | left + 1, row, numElems, curElems, cumulMaxElems, dst, totalsize, mem =>
    let copyElems := if numElems < curElems then numElems else curElems
    let numElems := if numElems < curElems then 0 else int4Value (numElems - copyElems)
    let copysize := allocSize copyElems list.elemSize
    let mem := mem.memmove dst (list.ptrArray row) copysize
    let totalsize := totalsize + copysize
    if numElems = 0 then some (totalsize, mem)
    else copyRows list left (row + 1) numElems cumulMaxElems (int4Value (cumulMaxElems * 2))
      (dst + copysize) totalsize mem

/-- Copy the first elements, row by row. -/
def copy_list_to_buf (list : BuddyList) (numElems : Int) (dst : Nat) (mem : ByteMemory) :
    Option (Nat × ByteMemory) :=
  copyRows list ptrArrayLen 0 numElems list.initAlloc list.initAlloc dst 0 mem

end Ydb
