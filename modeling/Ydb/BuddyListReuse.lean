import Ydb.BuddyListRuns
import Mathlib.Data.List.Perm.Basic

/-!
# Reuse of elements

Elements that are freed singly are linked, and handed out again before a new one is
taken. Every slot is either linked or handed out, and the links stand in slots that
nobody else writes to.
-/

namespace Ydb

open Lib

namespace BuddyList

section PoolRuns

variable (malloc : Blocks → Nat → Option Nat) (elemSize initAlloc : Nat)

/-- An address in a row. -/
def InRow (list : BuddyList) (a : Nat) : Prop :=
  ∃ r, list.ptrArray r ≠ 0 ∧ (list.row r).1 ≤ a ∧ a < (list.row r).1 + (list.row r).2

/-- The containers and memories reached from a new container, and the elements handed
out. Between the operations memory may change, except for what lies in a row and was
not handed out. -/
inductive PoolRun : BuddyList → Blocks → ByteMemory → List Nat → Prop
  | start {blocks blocks' list mem} : Creatable elemSize initAlloc →
      initialize_list malloc blocks elemSize initAlloc = some (list, blocks') →
      PoolRun list blocks' mem []
  | get {list blocks mem live elem list' blocks'} : PoolRun list blocks mem live →
      (list.free_que = 0 → list.nElems < 2 ^ 30) →
      get_new_free_element malloc list blocks mem = some (((elem : Nat) : Int), list', blocks') →
      PoolRun list' blocks' mem (elem :: live)
  | free {list blocks mem live elem list' mem'} : PoolRun list blocks mem live → elem ∈ live →
      free_element list mem elem = (list', mem') → PoolRun list' blocks mem' (live.erase elem)
  | write {list blocks mem live mem'} : PoolRun list blocks mem live →
      (∀ a, InRow list a → (∀ s ∈ live, a < s ∨ s + list.elemSize.toNat ≤ a) → mem' a = mem a) →
      PoolRun list blocks mem' live

end PoolRuns

variable {malloc : Blocks → Nat → Option Nat} {elemSize initAlloc : Nat} {list : BuddyList}
  {blocks : Blocks} {mem : ByteMemory} {live : List Nat} {e size n : Nat}

/-! ## Links -/

/-- A pointer, if it is not null. -/
def nonnull (p : Nat) : Option Nat := if p = 0 then none else some p

/-- The free element that follows a free element. -/
def nextFree (mem : ByteMemory) (elem : Nat) : Option Nat := nonnull (loadPointer mem elem)

theorem loadPointer_congr {mem mem' : ByteMemory} {addr : Nat}
    (same : ∀ i < 8, mem' (addr + i) = mem (addr + i)) : loadPointer mem' addr = loadPointer mem addr := by
  rw [loadPointer, ByteMemory.read_congr same, loadPointer]

theorem loadPointer_storePointer (mem : ByteMemory) (addr : Nat) {value : Nat} (small : value < 2 ^ 64) :
    loadPointer (storePointer mem addr value) addr = value := by
  have bytes := ByteMemory.read_store mem addr (wordBytes (BitVec.ofNat 64 value))
  rw [length_wordBytes] at bytes
  rw [loadPointer, storePointer, bytes, word_wordBytes, BitVec.toNat_ofNat, Nat.mod_eq_of_lt small]

theorem storePointer_of_outside {addr a : Nat} {value : Nat} (outside : a < addr ∨ addr + 8 ≤ a) :
    storePointer mem addr value a = mem a := by
  apply ByteMemory.store_of_outside
  rwa [length_wordBytes]

/-! ## The invariant -/

/-- The slots of the elements are free or handed out, the free ones linked. -/
structure PoolInv (list : BuddyList) (blocks : Blocks) (mem : ByteMemory) (live freed : List Nat)
    (e size n : Nat) : Prop where
  holds : Holds list blocks e size n
  links : Chain (nextFree mem) (nonnull list.free_que) freed
  slots : List.Perm (freed ++ live) ((List.range n).map list.slot)

theorem Holds.slot_nonnull (holds : Holds list blocks e size n) {i : Nat} (inside : i < n) :
    list.slot i ≠ 0 := by
  obtain ⟨top, rows⟩ := holds.rows
  have bounds := holds.slot_inside i
  have row := holds.rowOf_le inside
  have pointer := rows.nonnull _ (row.trans rows.opened)
  have first : (list.row (rowOf size i)).1 = list.ptrArray (rowOf size i) := rfl
  omega

theorem Holds.slot_bounded (holds : Holds list blocks e size n) {i : Nat} (inside : i < n) :
    list.slot i < 2 ^ 64 := by
  obtain ⟨top, rows⟩ := holds.rows
  have bounds := holds.slot_inside i
  have row := holds.rowOf_le inside
  have limit := rows.bounded _ (row.trans rows.opened)
  have pointer := holds.pointer
  omega

theorem Holds.slot_inRow (holds : Holds list blocks e size n) {i j : Nat} (inside : i < n)
    (less : j < e) : InRow list (list.slot i + j) := by
  obtain ⟨top, rows⟩ := holds.rows
  have bounds := holds.slot_inside i
  have row := holds.rowOf_le inside
  exact ⟨_, rows.nonnull _ (row.trans rows.opened), by omega, by omega⟩

namespace PoolInv

variable {freed : List Nat}

theorem mem_slot (inv : PoolInv list blocks mem live freed e size n) {s : Nat}
    (member : s ∈ freed ++ live) : ∃ i < n, s = list.slot i := by
  obtain ⟨i, inside, rfl⟩ := List.mem_map.mp (inv.slots.mem_iff.mp member)
  exact ⟨i, List.mem_range.mp inside, rfl⟩

/-- No two slots in use, free or handed out, touch each other. -/
theorem apart (inv : PoolInv list blocks mem live freed e size n) :
    (freed ++ live).Pairwise fun a b => BlocksApart (a, e) (b, e) := by
  have symmetric : ∀ {a b : Nat}, BlocksApart (a, e) (b, e) → BlocksApart (b, e) (a, e) := by
    intro a b apart
    exact apart.symm
  refine (List.Perm.pairwise_iff symmetric inv.slots).mpr ?_
  rw [List.pairwise_map]
  refine List.Pairwise.imp_of_mem ?_ List.pairwise_lt_range
  intro i j first second less
  exact inv.holds.slot_apart (List.mem_range.mp first) (List.mem_range.mp second) less.ne

theorem apart_of_live (inv : PoolInv list blocks mem live freed e size n) {s t : Nat}
    (free : s ∈ freed) (used : t ∈ live) : s + e ≤ t ∨ t + e ≤ s :=
  (List.pairwise_append.mp inv.apart).2.2 s free t used

theorem free_que_eq (inv : PoolInv list blocks mem live freed e size n) :
    nonnull list.free_que = freed.head? := inv.links.root_eq

/-- The pointer to the free elements can be stored. -/
theorem free_que_bounded (inv : PoolInv list blocks mem live freed e size n) :
    list.free_que < 2 ^ 64 := by
  have head := inv.free_que_eq
  by_cases null : list.free_que = 0
  · rw [null]
    decide
  · rw [nonnull, if_neg null] at head
    have member : list.free_que ∈ freed := List.mem_of_mem_head? head.symm
    obtain ⟨i, inside, equal⟩ := inv.mem_slot (List.mem_append_left live member)
    rw [equal]
    exact inv.holds.slot_bounded inside

/-! ## Steps -/

/-- The links do not depend on the bytes that others write. -/
theorem write (inv : PoolInv list blocks mem live freed e size n) {mem' : ByteMemory}
    (kept : ∀ a, InRow list a → (∀ s ∈ live, a < s ∨ s + list.elemSize.toNat ≤ a) → mem' a = mem a) :
    PoolInv list blocks mem' live freed e size n := by
  refine ⟨inv.holds, inv.links.congr ?_, inv.slots⟩
  intro s member
  have pointer := inv.holds.pointer
  rw [nextFree, nextFree]
  congr 1
  apply loadPointer_congr
  intro j less
  obtain ⟨i, inside, rfl⟩ := inv.mem_slot (List.mem_append_left live member)
  apply kept _ (inv.holds.slot_inRow inside (by omega))
  intro t used
  rw [inv.holds.elemSize, Int.toNat_natCast]
  have away := inv.apart_of_live member used
  omega

/-- An element that is handed out again is no longer linked. -/
theorem reuse {f : Nat} (inv : PoolInv list blocks mem live (f :: freed) e size n) :
    list.free_que = f ∧ list.free_que ≠ 0 ∧
      PoolInv { list with free_que := loadPointer mem f } blocks mem (f :: live) freed e size n := by
  have head := inv.free_que_eq
  rw [List.head?_cons] at head
  have present : list.free_que ≠ 0 := by
    intro null
    rw [nonnull, if_pos null] at head
    exact nomatch head
  rw [nonnull, if_neg present, Option.some.injEq] at head
  have holds := inv.holds
  have same : SameRows list { list with free_que := loadPointer mem f } := ⟨rfl, rfl, rfl, rfl⟩
  refine ⟨head, present, ⟨?_, inv.links.tail, ?_⟩⟩
  · obtain ⟨top, rows⟩ := holds.rows
    exact ⟨same.sized holds.toSized, holds.nElems, holds.curr, holds.cumul, holds.next, holds.count, top,
      same.rows rows rows.opened⟩
  · exact List.perm_middle.trans inv.slots

/-- An element that is freed is linked before the others. -/
theorem free (inv : PoolInv list blocks mem live freed e size n) {elem : Nat} (member : elem ∈ live) :
    PoolInv (free_element list mem elem).1 blocks (free_element list mem elem).2 (live.erase elem)
      (elem :: freed) e size n := by
  have holds := inv.holds
  have pointer := holds.pointer
  have same : SameRows list (free_element list mem elem).1 := ⟨rfl, rfl, rfl, rfl⟩
  obtain ⟨i, inside, equal⟩ := inv.mem_slot (List.mem_append_right freed member)
  refine ⟨?_, ⟨?_, ?_⟩, ?_⟩
  · obtain ⟨top, rows⟩ := holds.rows
    exact ⟨same.sized holds.toSized, holds.nElems, holds.curr, holds.cumul, holds.next, holds.count, top,
      same.rows rows rows.opened⟩
  · exact if_neg (equal ▸ holds.slot_nonnull inside)
  · have first : nextFree (free_element list mem elem).2 elem = nonnull list.free_que := by
      rw [nextFree]
      congr 1
      exact loadPointer_storePointer mem elem inv.free_que_bounded
    rw [first]
    apply inv.links.congr
    intro s linked
    have away := inv.apart_of_live linked member
    rw [nextFree, nextFree]
    congr 1
    apply loadPointer_congr
    intro j less
    exact storePointer_of_outside (by omega)
  · have whole : List.Perm (elem :: live.erase elem) live := (List.perm_cons_erase member).symm
    exact (List.perm_middle.symm.trans (whole.append_left freed)).trans inv.slots

/-- An element that is added was not handed out. -/
theorem add (inv : PoolInv list blocks mem live [] e size n) {list' : BuddyList} {blocks' : Blocks}
    (holds : Holds list' blocks' e size (n + 1)) (same : ∀ i < n, list'.slot i = list.slot i)
    (queue : list'.free_que = list.free_que) :
    PoolInv list' blocks' mem (list'.slot n :: live) [] e size (n + 1) := by
  refine ⟨holds, queue ▸ inv.links, ?_⟩
  have before : (List.range n).map list'.slot = (List.range n).map list.slot := by
    apply List.map_congr_left
    intro i member
    exact same i (List.mem_range.mp member)
  have slots := inv.slots
  rw [List.nil_append] at slots ⊢
  rw [List.range_succ, List.map_append, before]
  exact (slots.cons _).trans (List.perm_append_singleton _ _).symm

end PoolInv

/-- The invariant of a run of calls. -/
theorem poolRun_inv (allocates : Allocates malloc)
    (run : PoolRun malloc elemSize initAlloc list blocks mem live) :
    ∃ freed e size n, PoolInv list blocks mem live freed e size n ∧ elemSize ≤ e := by
  induction run with
  | start creatable created =>
    obtain ⟨e, size, holds, enough, _, queue⟩ := initialize_list_spec allocates creatable created
    refine ⟨[], e, size, 0, ⟨holds, ?_, List.Perm.refl _⟩, enough⟩
    rw [queue]
    rfl
  | @get list blocks mem live elem list' blocks' _ room result ih =>
    obtain ⟨freed, e, size, n, inv, enough⟩ := ih
    cases freed with
    | nil =>
      have null : list.free_que = 0 := by
        have head := inv.free_que_eq
        by_contra present
        rw [nonnull, if_neg present] at head
        exact nomatch head
      have few := room null
      rw [inv.holds.nElems] at few
      rw [get_new_free_element, if_neg (not_not_intro null)] at result
      rcases get_new_element_spec allocates inv.holds (by omega) with ⟨fails, _⟩ | ⟨list₁, blocks₁, given, holds, same, queue⟩
      · exact nomatch fails.symm.trans result
      · obtain ⟨slot, rest⟩ := Prod.mk.inj (Option.some.inj (given.symm.trans result))
        obtain ⟨rfl, rfl⟩ := Prod.mk.inj rest
        rw [Int.natCast_inj] at slot
        exact ⟨[], e, size, n + 1, slot ▸ inv.add holds same queue, enough⟩
    | cons f freed =>
      obtain ⟨head, present, inv'⟩ := inv.reuse
      rw [get_new_free_element, if_pos present, head] at result
      obtain ⟨slot, rest⟩ := Prod.mk.inj (Option.some.inj result)
      obtain ⟨rfl, rfl⟩ := Prod.mk.inj rest
      rw [Int.natCast_inj] at slot
      exact ⟨freed, e, size, n, slot ▸ inv', enough⟩
  | @free list blocks mem live elem list' mem' _ member result ih =>
    obtain ⟨freed, e, size, n, inv, enough⟩ := ih
    obtain ⟨rfl, rfl⟩ := Prod.mk.inj result
    exact ⟨elem :: freed, e, size, n, inv.free member, enough⟩
  | write _ kept ih =>
    obtain ⟨freed, e, size, n, inv, enough⟩ := ih
    exact ⟨freed, e, size, n, inv.write kept, enough⟩

/-- In every run that stays in reach of 32-bit offsets, a container whose elements are
freed at the end is a stack of slots, and one whose elements are freed singly never hands
out a slot in use. The operations fail only for want of memory. -/
theorem buddy_list_refines_stack (allocates : Allocates malloc) :
    (∀ list blocks slots, StackRun malloc elemSize initAlloc list blocks slots →
      Stack elemSize list blocks slots ∧
      (list.NextInReach →
        (get_new_element malloc list blocks 1 = none ∧ ∃ bytes, malloc blocks bytes = none) ∨
        ∃ (elem : Nat) (list' : BuddyList) (blocks' : Blocks),
          get_new_element malloc list blocks 1 = some ((elem : Int), list', blocks')) ∧
      (∀ num, num ≤ slots.length → list.LastInReach num →
        ∃ list', free_last_n_elements list (num : Nat) = (true, list')) ∧
      ∀ num, slots.length < num → free_last_n_elements list (num : Nat) = (false, list)) ∧
    ∀ list blocks mem live, PoolRun malloc elemSize initAlloc list blocks mem live →
      elemSize ≤ list.elemSize.toNat ∧
      (live.Pairwise fun a b => BlocksApart (a, list.elemSize.toNat) (b, list.elemSize.toNat)) ∧
      (∀ s ∈ live, ∀ j < list.elemSize.toNat, InRow list (s + j)) ∧
      ((list.free_que = 0 → list.nElems < 2 ^ 30) →
        (get_new_free_element malloc list blocks mem = none ∧ ∃ bytes, malloc blocks bytes = none) ∨
        ∃ (elem : Nat) (list' : BuddyList) (blocks' : Blocks),
          get_new_free_element malloc list blocks mem = some ((elem : Int), list', blocks')) := by
  constructor
  · intro list blocks slots run
    have inv := stackRun_inv allocates run
    obtain ⟨e, size, holds, enough, near⟩ := inv.holds
    refine ⟨inv.stack, ?_, ?_, ?_⟩
    · intro reach
      have room := reach.1
      rw [holds.nElems] at room
      rcases get_new_element_spec allocates holds (by omega) with fails | ⟨list', blocks', given, _⟩
      · exact .inl fails
      · exact .inr ⟨_, list', blocks', given⟩
    · intro num le reach
      obtain ⟨used, left⟩ := reach
      rw [holds.elemSize, holds.initAlloc, holds.nElems, Int.toNat_natCast, Int.toNat_natCast,
        Int.toNat_natCast] at used left
      obtain ⟨list', given, _⟩ := free_last_n_elements_spec holds le used left
      exact ⟨list', given⟩
    · intro num more
      rw [free_last_n_elements, if_neg]
      rw [holds.nElems]
      omega
  · intro list blocks mem live run
    obtain ⟨freed, e, size, n, inv, enough⟩ := poolRun_inv allocates run
    have element : list.elemSize.toNat = e := by rw [inv.holds.elemSize, Int.toNat_natCast]
    rw [element]
    refine ⟨enough, (List.pairwise_append.mp inv.apart).2.1, ?_, ?_⟩
    · intro s member j less
      obtain ⟨i, inside, rfl⟩ := inv.mem_slot (List.mem_append_right freed member)
      exact inv.holds.slot_inRow inside less
    · intro room
      rw [get_new_free_element]
      by_cases null : list.free_que = 0
      · rw [if_neg (not_not_intro null)]
        have few := room null
        rw [inv.holds.nElems] at few
        rcases get_new_element_spec allocates inv.holds (by omega) with fails | ⟨list', blocks', given, _⟩
        · exact .inl fails
        · exact .inr ⟨_, list', blocks', given⟩
      · rw [if_pos null]
        exact .inr ⟨_, _, _, rfl⟩

/-- An allocator that puts every block behind all others. -/
def bumpMalloc (blocks : Blocks) (bytes : Nat) : Option Nat :=
  let row := blocks.foldr (fun block top => max (block.1 + block.2) top) 8
  if row + bytes ≤ 2 ^ 64 then some row else none

theorem bumpMalloc_allocates : Allocates bumpMalloc := by
  have least : ∀ blocks : Blocks, 8 ≤ blocks.foldr (fun block top => max (block.1 + block.2) top) 8 ∧
      ∀ block ∈ blocks, block.1 + block.2 ≤
        blocks.foldr (fun block top => max (block.1 + block.2) top) 8 := by
    intro blocks
    induction blocks with
    | nil => exact ⟨Nat.le_refl 8, nofun⟩
    | cons block blocks ih =>
      obtain ⟨low, behind⟩ := ih
      rw [List.foldr_cons]
      refine ⟨low.trans (Nat.le_max_right _ _), ?_⟩
      intro other member
      rcases List.mem_cons.mp member with rfl | member
      · exact Nat.le_max_left _ _
      · exact (behind other member).trans (Nat.le_max_right _ _)
  constructor
  · intro blocks bytes row granted
    have low := (least blocks).1
    simp only [bumpMalloc, Option.ite_none_right_eq_some, Option.some.injEq] at granted
    omega
  · intro blocks bytes row granted
    simp only [bumpMalloc, Option.ite_none_right_eq_some, Option.some.injEq] at granted
    omega
  · intro blocks bytes row granted block member
    have behind := (least blocks).2 block member
    simp only [bumpMalloc, Option.ite_none_right_eq_some, Option.some.injEq] at granted
    exact .inr (by dsimp only; omega)

/-! ## A container with rows of one, one and two elements -/

/-- The container when it is made. -/
def rows : BuddyList := ⟨fun r => if r = 0 then 8 else 0, 8, 1, 0, 0, 1, 0, 8, 0⟩

theorem rows_created : initialize_list bumpMalloc [] 5 1 = some (rows, [(8, 8)]) := by
  have power : powerOfTwo 1 = 1 := by simp [powerOfTwo, floorToPower]
  have shifts : shiftCount 1 0 = 1 := by simp [shiftCount]
  rw [initialize_list]
  dsimp only
  rw [if_neg Nat.one_ne_zero, power, shifts]
  rfl

/-- The container and the blocks when one more element is taken. -/
def taken (state : BuddyList × Blocks) : BuddyList × Blocks :=
  ((get_new_element bumpMalloc state.1 state.2 1).map Prod.snd).getD state

/-- Three elements are taken, each from a new row. -/
def threeRows : BuddyList × Blocks := taken (taken (taken (rows, [(8, 8)])))

/-- The last two are freed, of the third and of the second row. -/
def oneLeft : BuddyList × Blocks := ((free_last_n_elements threeRows.1 2).2, threeRows.2)

/-- Freeing two elements ends exactly at the end of the first row. The next element is in the second row again. -/
theorem buddy_list_refines_stack_rows :
    threeRows.2 = [(24, 16), (16, 8), (8, 8)] ∧ oneLeft.1.ptrArrayCurr = 0 ∧
      Stack 5 threeRows.1 threeRows.2 [8, 16, 24] ∧ Stack 5 (taken oneLeft).1 (taken oneLeft).2 [8, 16] := by
  have creatable : Creatable 5 1 := ⟨by decide, by decide, by decide⟩
  have start : StackRun bumpMalloc 5 1 rows [(8, 8)] [] := .start creatable rows_created
  have first : StackRun bumpMalloc 5 1 (taken (rows, [(8, 8)])).1 (taken (rows, [(8, 8)])).2 [8] :=
    start.get ⟨by decide, by decide +kernel⟩ rfl
  have second : StackRun bumpMalloc 5 1 (taken (taken (rows, [(8, 8)]))).1 (taken (taken (rows, [(8, 8)]))).2 [8, 16] :=
    first.get ⟨by decide +kernel, by decide +kernel⟩ rfl
  have third : StackRun bumpMalloc 5 1 threeRows.1 threeRows.2 [8, 16, 24] :=
    second.get ⟨by decide +kernel, by decide +kernel⟩ rfl
  have reach : threeRows.1.LastInReach 2 := ⟨by decide +kernel, by decide +kernel⟩
  have one : StackRun bumpMalloc 5 1 oneLeft.1 oneLeft.2 [8] := third.free reach rfl
  have again : StackRun bumpMalloc 5 1 (taken oneLeft).1 (taken oneLeft).2 [8, 16] :=
    one.get ⟨by decide +kernel, by decide +kernel⟩ rfl
  exact ⟨rfl, rfl, ((buddy_list_refines_stack bumpMalloc_allocates).1 _ _ _ third).1,
    ((buddy_list_refines_stack bumpMalloc_allocates).1 _ _ _ again).1⟩

/-- Take three elements of `2 ^ 30` bytes, of a row of four, and find the last one. -/
def farElement : Option (Int × Option Int) := do
  let (list, blocks) ← initialize_list bumpMalloc [] (2 ^ 30) 4
  let (_, list, blocks) ← get_new_element bumpMalloc list blocks 1
  let (_, list, blocks) ← get_new_element bumpMalloc list blocks 1
  let (elem, list, _) ← get_new_element bumpMalloc list blocks 1
  pure (elem, find_element list 2)

/-- The third element is found `2 ^ 31` bytes before its row, not behind the second one. -/
theorem find_element_far : farElement = some (8 + 2 ^ 31, some (8 - 2 ^ 31)) := by
  have power : powerOfTwo 4 = 4 := by simp [powerOfTwo, floorToPower]
  have shifts : shiftCount 4 0 = 3 := by simp [shiftCount]
  have row : shiftCount 2 2 = 2 := by simp [shiftCount]
  have created : initialize_list bumpMalloc [] (2 ^ 30) 4 = some
      ({ ptrArray := fun r => if r = 0 then 8 else 0
         elemSize := 2 ^ 30
         initAlloc := 4
         initAllocBits := 2
         nElems := 0
         cumulMaxElems := 4
         ptrArrayCurr := 0
         nextFreePtr := 8
         free_que := 0 }, [(8, 2 ^ 32)]) := by
    rw [initialize_list]
    dsimp only
    rw [if_neg (by decide), power, shifts]
    rfl
  rw [farElement, created]
  change some (_, find_element _ 2) = _
  rw [find_element, if_neg (by decide)]
  dsimp only
  have index : (2 : Int).toNat = 2 := rfl
  rw [index, row]
  rfl

end BuddyList

end Ydb
