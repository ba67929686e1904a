import Mathlib.Algebra.Group.Nat.Defs
import Mathlib.Data.List.Basic
import Mathlib.Logic.Function.Basic

/-!
# Small storage

Requests for storage of up to `MAXTWO` bytes, header included, are served from
extents, which are obtained from the system and divided into elements whose sizes
are powers of two. Elements that are free are on queues by size; an element is
split when there is none of the size wanted, and combined with its buddy again
when both are free. Larger requests go to the system.

This is the production build on a 64-bit platform. A queue is the list of its
elements, from the front. The headers of elements and extents are kept by address;
what they say at other addresses is not defined. The last two fields of the state
are not the program's: the areas obtained from the system and not returned, and
the storage in use. A failed assertion has no result.
-/

namespace Ydb

/-- The header of an element. -/
structure StorElem where
  queueIndex : Int
  state : UInt8
  extHdrOffset : Nat
  realLen : Nat
deriving DecidableEq, Repr

/-- The header of an extent. -/
structure StorExtHdr where
  extentStart : Nat
  elemStart : Nat
  elemsAllocd : Int
deriving DecidableEq, Repr

/-- Storage in use: the address of the header, the length with the header, and how many
bytes were asked for. -/
structure LiveStorage where
  uStor : Nat
  realLen : Nat
  size : Nat
deriving DecidableEq, Repr

/-- The state of the storage manager. -/
structure Storage where
  elem : Nat → StorElem
  ext : Nat → StorExtHdr
  freeStorElemQs : Nat → List Nat
  storExtHdrQ : List Nat
  curExtents : Nat
  totalRmalloc : Nat
  totalAlloc : Nat
  totalUsed : Nat
  areas : List (Nat × Nat)
  live : List LiveStorage

def MAXTWO : Nat := 2048

def MINTWO : Nat := 32

def MAXINDEX : Nat := 6

def ELEMS_PER_EXTENT : Nat := 16

def STOR_EXTENTS_KEEP : Nat := 5

def REAL_MALLOC : Int := -2

def Allocated : UInt8 := 0x42

def Free : UInt8 := 0x24

/-- The size of the header of an element. -/
def hdrSize : Nat := 16

def SIZEOF_storExtHdr : Nat := 40

def EXTENT_SIZE : Nat := MAXTWO * (ELEMS_PER_EXTENT + 1) + SIZEOF_storExtHdr

/-- The sizes of elements. -/
def TwoTable (i : Nat) : Nat := [32, 64, 128, 256, 512, 1024, 2048, 0xFFFFFFFF].getD i 0

/-- The loop of `gtmSmInit` over the table of sizes. -/
def sizeTableLoop : Nat → Nat → Nat → List Nat
  | 0, _, _ => []
  | rest + 1, testSize, sizeIndex =>
    let sizeIndex := if TwoTable sizeIndex < testSize then sizeIndex + 1 else sizeIndex
    sizeIndex :: sizeTableLoop rest (testSize + MINTWO) sizeIndex

/-- The index of every size. -/
def size2Index : List Nat := sizeTableLoop (MAXTWO / MINTWO) MINTWO 0

/-- The index of a size. -/
def GetSizeIndex (size : Nat) : Nat := size2Index.getD ((size - 1) / MINTWO) 0

namespace Storage

variable (s : Storage)

/-- Assign to fields of the header at an address. -/
def setElem (a : Nat) (f : StorElem → StorElem) : Storage :=
  { s with elem := Function.update s.elem a (f (s.elem a)) }

/-- Change the header of an extent. -/
def setExt (h : Nat) (f : StorExtHdr → StorExtHdr) : Storage :=
  { s with ext := Function.update s.ext h (f (s.ext h)) }

/-- The system gives an area. -/
def MALLOC (size addr : Nat) : Storage := { s with areas := (addr, size) :: s.areas }

/-- Give an area back to the system. -/
def FREE (size addr : Nat) : Storage := { s with areas := s.areas.erase (addr, size) }

/-- Put an element in front of its queue. -/
def ENQUEUE_STOR_ELEM (idx a : Nat) : Storage :=
  { s with freeStorElemQs :=
      Function.update s.freeStorElemQs idx (a :: s.freeStorElemQs idx) }

/-- Take an element off the queue it is on. -/
def DEQUEUE_STOR_ELEM (a : Nat) : Option Storage :=
  if (List.range (MAXINDEX + 1)).any fun idx => (s.freeStorElemQs idx).contains a then
    some { s with freeStorElemQs := fun idx => (s.freeStorElemQs idx).erase a }
  else none

end Storage

/-! ## Obtaining elements -/

/-- The loop of `findStorElem` that puts the blocks of a new extent but the first on the
queue. -/
def placeBlocks (sEHdr : Nat) : Nat → Nat → Storage → Storage
  | 0, _, s => s
  | rest + 1, uStor2, s =>
    let uStor2 := uStor2 + MAXTWO
    let s := s.setElem uStor2 fun e => { e with
      state := Free
      queueIndex := MAXINDEX
      extHdrOffset := sEHdr - uStor2 }
    placeBlocks sEHdr rest uStor2 (s.ENQUEUE_STOR_ELEM MAXINDEX uStor2)

/-- Set up the header and the blocks of an extent. The first block is not put on the queue. -/
def carveExtent (uStorAlloc uStor sEHdr blocks : Nat) (s : Storage) : Storage :=
  let s := placeBlocks sEHdr (blocks - 1) uStor s
  let s := s.setElem uStor fun e => { e with
    extHdrOffset := sEHdr - uStor
    state := Free
    queueIndex := MAXINDEX }
  let s := s.setExt sEHdr fun _ => ⟨uStorAlloc, uStor, 1⟩
  { s with storExtHdrQ := sEHdr :: s.storExtHdrQ }

/-- Get an extent from the system. Its blocks are aligned, and there is one more of them if
the extent is. -/
def newExtent (uStorAlloc : Nat) (s : Storage) : Storage × Nat :=
  let s := { s with curExtents := s.curExtents + 1 }
  let s := s.MALLOC EXTENT_SIZE uStorAlloc
  let s := { s with totalRmalloc := s.totalRmalloc + EXTENT_SIZE }
  let uStor := (uStorAlloc + (MAXTWO - 1)) / MAXTWO * MAXTWO
  let blocks := if uStor = uStorAlloc then ELEMS_PER_EXTENT + 1 else ELEMS_PER_EXTENT
  (carveExtent uStorAlloc uStor (uStor + blocks * MAXTWO) blocks s, uStor)

/-- Take the first element of a queue, or find one elsewhere. -/
def GET_QUEUED_ELEMENT (find : Storage → Option (Storage × Nat)) (sizeIndex : Nat) (s : Storage) :
    Option (Storage × Nat) :=
  match s.freeStorElemQs sizeIndex with
  | uStor :: _ => do
    let s ← s.DEQUEUE_STOR_ELEM uStor
    if sizeIndex = MAXINDEX then
      let sEHdr := uStor + (s.elem uStor).extHdrOffset
      some (s.setExt sEHdr fun e => { e with elemsAllocd := e.elemsAllocd + 1 }, uStor)
    else some (s, uStor)
  | [] => find s

/-- Split a larger element; the second half goes on the queue. -/
def splitElem (sizeIndex uStor : Nat) (s : Storage) : Storage :=
  let uStor2 := uStor + TwoTable sizeIndex
  let s := s.setElem uStor2 fun e => { e with state := Free, queueIndex := sizeIndex }
  let s := s.ENQUEUE_STOR_ELEM sizeIndex uStor2
  s.setElem uStor fun e => { e with queueIndex := sizeIndex }

/-- Find an element with the index `MAXINDEX - above`, the queue for which is empty.
`uStorAlloc` is what the system gives if asked for an extent. -/
def findStorElem (uStorAlloc : Nat) : Nat → Storage → Option (Storage × Nat)
  | 0, s => some (newExtent uStorAlloc s)
  | above + 1, s => do
    let (s, uStor) ← GET_QUEUED_ELEMENT (findStorElem uStorAlloc above) (MAXINDEX - above) s
    some (splitElem (MAXINDEX - above - 1) uStor s, uStor)

/-- Obtain storage. The result is none for no bytes, where the program has a fixed address.
`addr` is what the system gives if it is asked. -/
def gtm_malloc_main (addr size : Nat) (s : Storage) : Option (Storage × Option Nat) :=
  if size = 0 then some (s, none)
  else if 2 ^ 64 ≤ size + hdrSize then none
  else
    let tSize := size + hdrSize
    if tSize ≤ MAXTWO then do
      let sizeIndex := GetSizeIndex tSize
      let (s, uStor) ← GET_QUEUED_ELEMENT (findStorElem addr (MAXINDEX - sizeIndex)) sizeIndex s
      let tSize := TwoTable sizeIndex
      let s := s.setElem uStor fun e => { e with realLen := tSize, state := Allocated }
      some ({ s with
        totalUsed := s.totalUsed + tSize
        totalAlloc := s.totalAlloc + tSize
        live := ⟨uStor, tSize, size⟩ :: s.live }, some (uStor + hdrSize))
    else
      let s := s.MALLOC tSize addr
      let s := s.setElem addr fun e => { e with
        queueIndex := REAL_MALLOC
        realLen := tSize
        state := Allocated }
      some ({ s with
        totalRmalloc := s.totalRmalloc + tSize
        totalUsed := s.totalUsed + tSize
        totalAlloc := s.totalAlloc + tSize
        live := ⟨addr, tSize, size⟩ :: s.live }, some (addr + hdrSize))

/-! ## Returning elements -/

/-- Combine an element with its buddy as long as that is free and whole. -/
def combineLoop : Nat → Nat → Nat → Storage → Option (Storage × Nat × Nat)
  | 0, sizeIndex, uStor, s => some (s, uStor, sizeIndex)
  | rounds + 1, sizeIndex, uStor, s =>
    if sizeIndex < MAXINDEX then
      let buddyElem := uStor ^^^ TwoTable sizeIndex
      if (s.elem buddyElem).state = Allocated ∨ (s.elem buddyElem).queueIndex ≠ sizeIndex then
        some (s, uStor, sizeIndex)
      else do
        let s ← s.DEQUEUE_STOR_ELEM buddyElem
        let uStor := if buddyElem < uStor then buddyElem else uStor
        let s := s.setElem uStor fun e => { e with queueIndex := (sizeIndex + 1 : Nat) }
        combineLoop rounds (sizeIndex + 1) uStor s
    else some (s, uStor, sizeIndex)

/-- The loop that takes the blocks of an extent off the queue. -/
def releaseLoop (sEHdr : Nat) : Nat → Nat → Storage → Option Storage
  | 0, _, _ => none
  | rounds + 1, uStor, s =>
    if uStor < sEHdr then
      if (s.elem uStor).state = Free ∧ (s.elem uStor).queueIndex = MAXINDEX then do
        let s ← s.DEQUEUE_STOR_ELEM uStor
        releaseLoop sEHdr rounds (uStor + MAXTWO) s
      else none
    else if uStor = sEHdr then some s
    else none

/-- Return an extent to the system. -/
def releaseExtent (sEHdr : Nat) (s : Storage) : Option Storage := do
  let s ← releaseLoop sEHdr (ELEMS_PER_EXTENT + 2) (s.ext sEHdr).elemStart s
  let s := { s with storExtHdrQ := s.storExtHdrQ.erase sEHdr }
  let s := s.FREE EXTENT_SIZE (s.ext sEHdr).extentStart
  some { s with
    totalRmalloc := s.totalRmalloc - EXTENT_SIZE
    curExtents := s.curExtents - 1 }

/-- A block is free as a whole: its extent may have to go. -/
def blockFreed (uStor : Nat) (s : Storage) : Option Storage :=
  let sEHdr := uStor + (s.elem uStor).extHdrOffset
  let s := s.setExt sEHdr fun e => { e with elemsAllocd := e.elemsAllocd - 1 }
  if STOR_EXTENTS_KEEP < s.curExtents ∧ (s.ext sEHdr).elemsAllocd = 0 then releaseExtent sEHdr s
  else some s

/-- Return storage; `none` is the fixed address. -/
def gtm_free_main (addr : Option Nat) (s : Storage) : Option Storage :=
  match addr with
  | none => some s
  | some addr =>
    let uStor := addr - hdrSize
    let e := s.elem uStor
    let s := { s with
      totalUsed := s.totalUsed - e.realLen
      live := s.live.filter fun l => l.uStor != uStor }
    if 0 ≤ e.queueIndex then do
      let sizeIndex := e.queueIndex.toNat
      let s := s.setElem uStor fun e => { e with state := Free }
      let s := { s with totalAlloc := s.totalAlloc - TwoTable sizeIndex }
      let (s, uStor, sizeIndex) ← combineLoop MAXINDEX sizeIndex uStor s
      let s := s.ENQUEUE_STOR_ELEM sizeIndex uStor
      if sizeIndex = MAXINDEX then blockFreed uStor s else some s
    else
      let s := s.FREE e.realLen uStor
      some { s with
        totalRmalloc := s.totalRmalloc - e.realLen
        totalAlloc := s.totalAlloc - e.realLen }

end Ydb
