import Ydb.BuddyList
import Mathlib.Data.List.Nodup

/-!
# Runs on buddy lists

Every element has a slot: a row and a place in it. A container with `n` elements uses
the first `n` slots. Elements are found, added, freed and copied in this order.
-/

namespace Ydb

open Lib

/-! ## Shifts and powers of two -/

/-- The loop rounds down to a power of two. -/
theorem floorToPower_eq {k t : Nat} (low : 2 ^ k ≤ t) (high : t < 2 ^ (k + 1)) :
    floorToPower t = 2 ^ k := by
  induction t using Nat.strong_induction_on with
  | _ t ih =>
    have bit : ∀ x, 2 ^ k ≤ x → x < 2 ^ (k + 1) → x.testBit k = true := by
      intro x low high
      have one : x / 2 ^ k = 1 := by
        apply Nat.div_eq_of_lt_le
        · omega
        · rwa [Nat.pow_succ, Nat.mul_comm] at high
      rw [Nat.testBit_eq_decide_div_mod_eq, one]
      rfl
    rw [floorToPower]
    rcases Nat.eq_or_lt_of_le low with power | more
    · have cleared : ¬ t &&& (t - 1) ≠ 0 := by
        rw [← power, Nat.and_two_pow_sub_one_eq_mod, Nat.mod_self]
        exact not_not_intro rfl
      rw [dif_neg cleared, power]
    · have both : (t &&& (t - 1)).testBit k = true := by
        rw [Nat.testBit_and, bit t low high, bit (t - 1) (by omega) (by omega)]
        rfl
      have atLeast : 2 ^ k ≤ t &&& (t - 1) := Nat.ge_two_pow_of_testBit both
      have positive : 0 < 2 ^ k := Nat.two_pow_pos k
      have below : t &&& (t - 1) ≤ t - 1 := Nat.and_le_right
      rw [dif_pos (by omega)]
      exact ih _ (by omega) atLeast (by omega)

theorem shiftCount_spec (index i : Nat) :
    i ≤ shiftCount index i ∧ index < 2 ^ shiftCount index i ∧
      (i < shiftCount index i → 2 ^ (shiftCount index i - 1) ≤ index) := by
  induction i using shiftCount.induct index with
  | case1 i remains ih =>
    obtain ⟨le, above, below⟩ := ih
    have reached : 2 ^ i ≤ index := by
      by_contra small
      exact remains (by rw [Nat.shiftRight_eq_div_pow, Nat.div_eq_of_lt (by omega)])
    rw [shiftCount, dif_pos remains]
    refine ⟨by omega, above, ?_⟩
    intro _
    rcases Nat.eq_or_lt_of_le le with last | more
    · rw [← last, Nat.add_sub_cancel]
      exact reached
    · exact below more
  | case2 i nothing =>
    rw [shiftCount, dif_neg nothing]
    refine ⟨Nat.le_refl i, ?_, fun less => absurd less (Nat.lt_irrefl i)⟩
    rw [Nat.shiftRight_eq_div_pow, not_not, Nat.div_eq_zero_iff] at nothing
    rcases nothing with zero | less
    · exact absurd zero (Nat.two_pow_pos i).ne'
    · exact less

/-- The shifts behind those for the first row count the rows. -/
theorem shiftCount_sub (index bits : Nat) :
    shiftCount index bits - bits = rowOf (2 ^ bits) index := by
  obtain ⟨le, above, below⟩ := shiftCount_spec index bits
  obtain ⟨r, count⟩ := Nat.exists_eq_add_of_le le
  rw [count] at above below ⊢
  rw [Nat.add_sub_cancel_left]
  symm
  apply rowOf_eq
  · cases r with
    | zero => exact Nat.zero_le index
    | succ r =>
      have start := below (by omega)
      rwa [rowStart_succ, rowEnd, ← Nat.pow_add, Nat.add_comm]
  · rwa [rowEnd, ← Nat.pow_add, Nat.add_comm]

/-! ## The invariant -/

/-- Two blocks of memory, each an address and a size, do not touch each other. -/
def BlocksApart (a b : Nat × Nat) : Prop := a.1 + a.2 ≤ b.1 ∨ b.1 + b.2 ≤ a.1

/-- What a block is allocated in is free, and its address is not null and fits in a
pointer. -/
structure Allocates (malloc : Blocks → Nat → Option Nat) : Prop where
  nonnull : ∀ blocks size row, malloc blocks size = some row → row ≠ 0
  bounded : ∀ blocks size row, malloc blocks size = some row → row + size ≤ 2 ^ 64
  apart : ∀ blocks size row, malloc blocks size = some row →
    ∀ block ∈ blocks, BlocksApart (row, size) block

namespace BuddyList

/-- The slot of the element with an index. -/
def slot (list : BuddyList) (i : Nat) : Nat :=
  list.ptrArray (rowOf list.initAlloc.toNat i) +
    list.elemSize.toNat * rowOffset list.initAlloc.toNat i

/-- The block of a row. -/
def row (list : BuddyList) (r : Nat) : Nat × Nat :=
  (list.ptrArray r, list.elemSize.toNat * rowSize list.initAlloc.toNat r)

/-- The sizes of a container, which do not change. -/
structure Sized (list : BuddyList) (e size : Nat) : Prop where
  elemSize : list.elemSize = e
  initAlloc : list.initAlloc = size
  bits : size = 2 ^ list.initAllocBits
  pointer : 8 ≤ e
  small : e < 2 ^ 31
  few : size ≤ 2 ^ 30

/-- The rows up to `top` are allocated, apart from each other. -/
structure Rows (list : BuddyList) (blocks : Blocks) (top : Nat) : Prop where
  opened : list.ptrArrayCurr ≤ top
  nonnull : ∀ r ≤ top, list.ptrArray r ≠ 0
  allocated : ∀ r ≤ top, list.row r ∈ blocks
  bounded : ∀ r ≤ top, (list.row r).1 + (list.row r).2 ≤ 2 ^ 64
  apart : ∀ r ≤ top, ∀ s ≤ top, r ≠ s → BlocksApart (list.row r) (list.row s)
  unused : ∀ r, top < r → list.ptrArray r = 0

/-- A container with `n` elements: the current row is that of the last one, and the next
pointer is behind the elements of this row. -/
structure Holds (list : BuddyList) (blocks : Blocks) (e size n : Nat) : Prop extends
    Sized list e size where
  nElems : list.nElems = n
  curr : list.ptrArrayCurr = rowOf size (n - 1)
  cumul : list.cumulMaxElems = rowEnd size list.ptrArrayCurr
  next : list.nextFreePtr = list.ptrArray list.ptrArrayCurr + e * (n - rowStart size list.ptrArrayCurr : Nat)
  count : n ≤ 2 ^ 30
  rows : ∃ top, Rows list blocks top

variable {list : BuddyList} {blocks : Blocks} {e size n : Nat}

theorem Sized.positive (sized : Sized list e size) : 0 < size := by
  rw [sized.bits]
  exact Nat.two_pow_pos _

theorem Sized.slot_eq (sized : Sized list e size) (i : Nat) :
    list.slot i = list.ptrArray (rowOf size i) + e * rowOffset size i := by
  rw [slot, sized.elemSize, sized.initAlloc, Int.toNat_natCast, Int.toNat_natCast]

theorem Sized.row_eq (sized : Sized list e size) (r : Nat) :
    list.row r = (list.ptrArray r, e * rowSize size r) := by
  rw [row, sized.elemSize, sized.initAlloc, Int.toNat_natCast, Int.toNat_natCast]

/-- The current row: the elements before it, and the last one at most at its end. -/
theorem Holds.range (holds : Holds list blocks e size n) :
    rowStart size list.ptrArrayCurr ≤ n ∧ n ≤ rowEnd size list.ptrArrayCurr ∧
      (0 < list.ptrArrayCurr → rowStart size list.ptrArrayCurr < n) := by
  have start := rowStart_rowOf_le size (n - 1)
  have finish := lt_rowEnd_rowOf holds.positive (n - 1)
  rw [← holds.curr] at start finish
  refine ⟨by omega, by omega, ?_⟩
  intro later
  obtain ⟨r, equal⟩ : ∃ r, list.ptrArrayCurr = r + 1 := ⟨list.ptrArrayCurr - 1, by omega⟩
  have before := rowEnd_pos holds.positive r
  rw [equal, rowStart_succ] at start ⊢
  omega

/-- The rows of the elements are not behind the current one. -/
theorem Holds.rowOf_le (holds : Holds list blocks e size n) {i : Nat} (inside : i < n) :
    rowOf size i ≤ list.ptrArrayCurr := by
  obtain ⟨_, finish, _⟩ := holds.range
  have start := rowStart_rowOf_le size i
  by_contra later
  obtain ⟨r, equal⟩ : ∃ r, rowOf size i = r + 1 := ⟨rowOf size i - 1, by omega⟩
  have mono : rowEnd size list.ptrArrayCurr ≤ rowEnd size r := rowEnd_mono (by omega)
  rw [equal, rowStart_succ] at start
  omega

/-- A slot lies in its row. -/
theorem Sized.slot_inside (sized : Sized list e size) (i : Nat) :
    (list.row (rowOf size i)).1 ≤ list.slot i ∧
      list.slot i + e ≤ (list.row (rowOf size i)).1 + (list.row (rowOf size i)).2 := by
  have start := rowStart_rowOf_le size i
  have finish := lt_rowEnd_rowOf sized.positive i
  have fits : e * (rowOffset size i + 1) ≤ e * rowSize size (rowOf size i) := by
    apply Nat.mul_le_mul_left
    rw [rowOffset, rowSize]
    omega
  rw [Nat.mul_add, Nat.mul_one] at fits
  rw [sized.slot_eq, sized.row_eq]
  constructor
  · exact Nat.le_add_right _ _
  · dsimp only
    omega

/-- The slots of two elements do not touch each other. -/
theorem Holds.slot_apart (holds : Holds list blocks e size n) {i j : Nat} (first : i < n)
    (second : j < n) (distinct : i ≠ j) : BlocksApart (list.slot i, e) (list.slot j, e) := by
  obtain ⟨top, rows⟩ := holds.rows
  have opened := rows.opened
  have insideI := holds.slot_inside i
  have insideJ := holds.slot_inside j
  by_cases same : rowOf size i = rowOf size j
  · have startI := rowStart_rowOf_le size i
    have startJ := rowStart_rowOf_le size j
    rw [BlocksApart, holds.slot_eq, holds.slot_eq, rowOffset, rowOffset, same]
    rw [same] at startI
    rcases Nat.lt_or_gt_of_ne distinct with less | more
    · have step : e * (i - rowStart size (rowOf size j) + 1) ≤ e * (j - rowStart size (rowOf size j)) :=
        Nat.mul_le_mul_left e (by omega)
      rw [Nat.mul_add, Nat.mul_one] at step
      exact .inl (by dsimp only; omega)
    · have step : e * (j - rowStart size (rowOf size j) + 1) ≤ e * (i - rowStart size (rowOf size j)) :=
        Nat.mul_le_mul_left e (by omega)
      rw [Nat.mul_add, Nat.mul_one] at step
      exact .inr (by dsimp only; omega)
  · have rowI := holds.rowOf_le first
    have rowJ := holds.rowOf_le second
    rcases rows.apart _ (by omega) _ (by omega) same with before | after
    · exact .inl (by dsimp only; omega)
    · exact .inr (by dsimp only; omega)

/-! ## Creation -/

theorem allocSize_natCast {elems elemSize : Nat} (fits : elemSize * elems < 2 ^ 64) :
    allocSize elems elemSize = elemSize * elems := by
  have product : (elems : Int) * elemSize = ((elemSize * elems : Nat) : Int) := by
    rw [Int.natCast_mul, Int.mul_comm]
  rw [allocSize, product]
  generalize elemSize * elems = bytes at fits ⊢
  omega

/-- Sizes that leave room for rounding. -/
def Creatable (elemSize initAlloc : Nat) : Prop :=
  0 < elemSize ∧ elemSize ≤ 2 ^ 31 - 8 ∧ initAlloc ≤ 2 ^ 30

/-- The power of two is large enough. -/
theorem powerOfTwo_spec {alloc : Nat} (positive : 0 < alloc) (most : alloc ≤ 2 ^ 30) :
    ∃ k ≤ 30, powerOfTwo alloc = 2 ^ k ∧ alloc ≤ 2 ^ k := by
  have low : 2 ^ Nat.log 2 alloc ≤ alloc := Nat.pow_log_le_self 2 positive.ne'
  have high : alloc < 2 ^ (Nat.log 2 alloc + 1) := Nat.lt_pow_succ_log_self (by decide) alloc
  rw [powerOfTwo, floorToPower_eq low high]
  split
  next other =>
    refine ⟨Nat.log 2 alloc + 1, ?_, ?_, Nat.le_of_lt high⟩
    · by_contra more
      have top : 2 ^ 30 ≤ 2 ^ Nat.log 2 alloc := Nat.pow_le_pow_right (by decide) (by omega)
      omega
    · rw [Nat.shiftLeft_eq, ← Nat.pow_add]
  next power =>
    rw [not_not] at power
    refine ⟨Nat.log 2 alloc, ?_, power, power.le⟩
    exact (Nat.pow_le_pow_iff_right (by decide : 1 < 2)).mp (power ▸ most)

/-- A new list holds nothing and has room. -/
theorem initialize_list_spec {malloc : Blocks → Nat → Option Nat} (allocates : Allocates malloc)
    {blocks blocks' : Blocks} {elemSize initAlloc : Nat} {list : BuddyList}
    (creatable : Creatable elemSize initAlloc)
    (created : initialize_list malloc blocks elemSize initAlloc = some (list, blocks')) :
    ∃ e size, Holds list blocks' e size 0 ∧ elemSize ≤ e ∧ initAlloc ≤ size ∧ list.free_que = 0 := by
  obtain ⟨nonempty, small, few⟩ := creatable
  have positive : 0 < (if initAlloc = 0 then 1 else initAlloc) := by
    split
    · exact Nat.one_pos
    · omega
  have most : (if initAlloc = 0 then 1 else initAlloc) ≤ 2 ^ 30 := by
    split
    · decide
    · exact few
  have least : initAlloc ≤ if initAlloc = 0 then 1 else initAlloc := by
    split
    · omega
    · exact Nat.le_refl _
  obtain ⟨k, bounded, rounded, enough⟩ := powerOfTwo_spec positive most
  have power : (2 ^ k : Nat) ≤ 2 ^ 30 := Nat.pow_le_pow_right (by decide) bounded
  have shifts : shiftCount (2 ^ k) 0 = k + 1 := by
    obtain ⟨_, above, below⟩ := shiftCount_spec (2 ^ k) 0
    have more : k < shiftCount (2 ^ k) 0 := (Nat.pow_lt_pow_iff_right (by decide)).mp above
    have less : shiftCount (2 ^ k) 0 - 1 ≤ k :=
      (Nat.pow_le_pow_iff_right (by decide)).mp (below (by omega))
    omega
  have elements : int4Value (((elemSize + 7) / 8 * 8 : Nat) : Int) = ((elemSize + 7) / 8 * 8 : Nat) :=
    int4Value_of_lt (by omega) (by omega)
  have initial : int4Value ((2 ^ k : Nat) : Int) = (2 ^ k : Nat) := by
    generalize (2 ^ k : Nat) = unit at power
    exact int4Value_of_lt (by omega) (by omega)
  have fits : (elemSize + 7) / 8 * 8 * 2 ^ k < 2 ^ 64 := by
    have bound : (elemSize + 7) / 8 * 8 * 2 ^ k ≤ 2 ^ 31 * 2 ^ 30 := Nat.mul_le_mul (by omega) power
    omega
  rw [initialize_list] at created
  dsimp only at created
  rw [rounded, shifts, initial] at created
  have cast : (((elemSize : Int) + 7) / 8 * 8) = ((elemSize + 7) / 8 * 8 : Nat) := by simp
  rw [cast, elements, allocSize_natCast fits] at created
  generalize element : (elemSize + 7) / 8 * 8 = e at created fits
  obtain ⟨⟨row, rest⟩, allocated, equal⟩ := Option.map_eq_some_iff.mp created
  obtain ⟨here, rfl⟩ := Prod.mk.inj equal
  obtain ⟨given, granted, block⟩ := Option.map_eq_some_iff.mp allocated
  obtain ⟨rfl, rfl⟩ := Prod.mk.inj block
  have sized : Sized list e (2 ^ k) := by
    subst here
    exact ⟨rfl, rfl, rfl, by omega, by omega, power⟩
  have first : rowOf (2 ^ k) (0 - 1) = 0 := rowOf_eq (Nat.zero_le _) (rowEnd_pos (Nat.two_pow_pos k) 0)
  have block : list.row 0 = (given, e * 2 ^ k) := by
    rw [sized.row_eq, rowSize_zero, ← here]
    rfl
  have rows : Rows list ((given, e * 2 ^ k) :: blocks) 0 := by
    have only : ∀ r ≤ 0, r = 0 := fun r le => Nat.le_zero.mp le
    constructor
    · rw [← here]
    · intro r le
      rw [only r le, ← here]
      exact allocates.nonnull _ _ _ granted
    · intro r le
      rw [only r le, block]
      exact List.mem_cons_self
    · intro r le
      rw [only r le, block]
      exact allocates.bounded _ _ _ granted
    · intro r le s le' distinct
      exact absurd ((only r le).trans (only s le').symm) distinct
    · intro r more
      rw [← here]
      exact if_neg more.ne'
  refine ⟨e, 2 ^ k, ⟨sized, ?_, ?_, ?_, ?_, Nat.zero_le _, 0, rows⟩, by omega, least.trans enough, ?_⟩
  · rw [← here]
    rfl
  · rw [← here, first]
  · rw [← here, rowEnd_zero]
  · rw [← here]
    simp
  · rw [← here]

/-! ## Adding an element -/

/-- A container with the same sizes and the same pointers to rows. -/
structure SameRows (list list' : BuddyList) : Prop where
  elemSize : list'.elemSize = list.elemSize
  initAlloc : list'.initAlloc = list.initAlloc
  bits : list'.initAllocBits = list.initAllocBits
  ptrArray : list'.ptrArray = list.ptrArray

theorem SameRows.sized {list' : BuddyList} (same : SameRows list list') (sized : Sized list e size) :
    Sized list' e size :=
  ⟨same.elemSize.trans sized.elemSize, same.initAlloc.trans sized.initAlloc,
    same.bits ▸ sized.bits, sized.pointer, sized.small, sized.few⟩

theorem SameRows.slot {list' : BuddyList} (same : SameRows list list') (i : Nat) :
    list'.slot i = list.slot i := by
  rw [BuddyList.slot, same.ptrArray, same.elemSize, same.initAlloc, BuddyList.slot]

theorem SameRows.rows {list' : BuddyList} (same : SameRows list list') {top : Nat}
    (rows : Rows list blocks top) (opened : list'.ptrArrayCurr ≤ top) : Rows list' blocks top := by
  have equal : list'.row = list.row := by
    funext r
    rw [row, same.ptrArray, same.elemSize, same.initAlloc, row]
  exact ⟨opened, same.ptrArray ▸ rows.nonnull, equal ▸ rows.allocated, equal ▸ rows.bounded,
    equal ▸ rows.apart, same.ptrArray ▸ rows.unused⟩

/-- The element is the next one of the current row. -/
theorem get_new_element_within (malloc : Blocks → Nat → Option Nat)
    (holds : Holds list blocks e size n) (room : n < 2 ^ 30)
    (within : n < rowEnd size list.ptrArrayCurr) :
    ∃ list', get_new_element malloc list blocks 1 = some ((list'.slot n : Int), list', blocks) ∧
      Holds list' blocks e size (n + 1) ∧ SameRows list list' ∧ list'.free_que = list.free_que := by
  obtain ⟨start, finish, _⟩ := holds.range
  have small := holds.small
  have count : int4Value (list.nElems + 1) = (n + 1 : Nat) := by
    rw [holds.nElems]
    exact int4Value_of_lt (by omega) (by omega)
  have step : int4Value (1 * list.elemSize) = e := by
    rw [holds.elemSize, Int.one_mul]
    exact int4Value_of_lt (by omega) (by omega)
  have fits : int4Value (list.nElems + 1) ≤ list.cumulMaxElems := by
    rw [count, holds.cumul]
    omega
  have here : rowOf size n = list.ptrArrayCurr := rowOf_eq start within
  let list' := { list with
    nextFreePtr := list.nextFreePtr + int4Value (1 * list.elemSize)
    nElems := int4Value (list.nElems + 1) }
  have same : SameRows list list' := ⟨rfl, rfl, rfl, rfl⟩
  obtain ⟨top, rows⟩ := holds.rows
  refine ⟨list', ?_, ⟨same.sized holds.toSized, count, here.symm, holds.cumul, ?_, room, top,
    same.rows rows rows.opened⟩, same, rfl⟩
  · have slot : (list'.slot n : Int) = list.nextFreePtr := by
      rw [same.slot, holds.slot_eq, here, rowOffset, here, holds.next]
      push_cast
      rfl
    rw [get_new_element, if_neg (by decide), if_pos fits, slot]
  · have more : n + 1 - rowStart size list.ptrArrayCurr = n - rowStart size list.ptrArrayCurr + 1 := by
      omega
    change list.nextFreePtr + int4Value (1 * list.elemSize) = _
    rw [step, holds.next, more]
    push_cast
    ring

/-- The container after a row was opened, with its first element. -/
def withRow (list : BuddyList) (row : Nat) : BuddyList :=
  { list with
    ptrArray := fun r => if r = list.ptrArrayCurr + 1 then row else list.ptrArray r
    ptrArrayCurr := list.ptrArrayCurr + 1
    cumulMaxElems := int4Value (list.cumulMaxElems * 2)
    nElems := int4Value (list.cumulMaxElems + 1)
    nextFreePtr := row + int4Value (list.elemSize * 1) }

theorem withRow_slot_before (list : BuddyList) (row : Nat) {i : Nat}
    (before : rowOf list.initAlloc.toNat i ≤ list.ptrArrayCurr) :
    (list.withRow row).slot i = list.slot i := by
  have other : ¬ rowOf list.initAlloc.toNat i = list.ptrArrayCurr + 1 := by omega
  rw [slot, slot]
  change (if rowOf list.initAlloc.toNat i = list.ptrArrayCurr + 1 then _ else _) + _ = _
  rw [if_neg other]
  rfl

/-- The next row of a container whose last row is full. -/
theorem Holds.next_row (holds : Holds list blocks e size n)
    (full : n = rowEnd size list.ptrArrayCurr) : rowOf size n = list.ptrArrayCurr + 1 := by
  have positive := rowEnd_pos holds.positive list.ptrArrayCurr
  apply rowOf_eq
  · rw [rowStart_succ, full]
  · rw [rowEnd_succ, full]
    omega

theorem Holds.withRow (holds : Holds list blocks e size n) (room : n < 2 ^ 30)
    (full : n = rowEnd size list.ptrArrayCurr) {blocks' : Blocks} {row top : Nat}
    (rows : Rows (list.withRow row) blocks' top) :
    Holds (list.withRow row) blocks' e size (n + 1) := by
  have small := holds.small
  have cumul := holds.cumul
  rw [← full] at cumul
  have sized : Sized (list.withRow row) e size :=
    ⟨holds.elemSize, holds.initAlloc, holds.bits, holds.pointer, holds.small, holds.few⟩
  refine ⟨sized, ?_, ?_, ?_, ?_, room, top, rows⟩
  · change int4Value (list.cumulMaxElems + 1) = _
    rw [cumul]
    exact int4Value_of_lt (by omega) (by omega)
  · rw [Nat.add_sub_cancel, holds.next_row full]
    rfl
  · change int4Value (list.cumulMaxElems * 2) = rowEnd size (list.ptrArrayCurr + 1)
    rw [rowEnd_succ, ← full, cumul, int4Value_of_lt (by omega) (by omega)]
    push_cast
    ring
  · have first : n + 1 - rowStart size (list.ptrArrayCurr + 1) = 1 := by
      rw [rowStart_succ, ← full]
      omega
    change (row : Int) + int4Value (list.elemSize * 1) = _
    change _ = ((if list.ptrArrayCurr + 1 = list.ptrArrayCurr + 1 then row else _ : Nat) : Int) +
      e * (n + 1 - rowStart size (list.ptrArrayCurr + 1) : Nat)
    rw [if_pos rfl, first, holds.elemSize, Int.mul_one, int4Value_of_lt (by omega) (by omega)]
    push_cast
    ring

theorem withRow_row_before (list : BuddyList) (row : Nat) {r : Nat}
    (before : r ≤ list.ptrArrayCurr) : (list.withRow row).row r = list.row r := by
  have other : ¬ r = list.ptrArrayCurr + 1 := by omega
  rw [BuddyList.row, BuddyList.row]
  change ((if r = list.ptrArrayCurr + 1 then row else list.ptrArray r), _) = _
  rw [if_neg other]
  rfl

/-- A row that was opened before is used again. -/
theorem Rows.reopen {top : Nat} (rows : Rows list blocks top)
    (present : list.ptrArray (list.ptrArrayCurr + 1) ≠ 0) :
    Rows (list.withRow (list.ptrArray (list.ptrArrayCurr + 1))) blocks top := by
  have inside : list.ptrArrayCurr + 1 ≤ top := by
    by_contra outside
    exact present (rows.unused _ (by omega))
  have pointers : (list.withRow (list.ptrArray (list.ptrArrayCurr + 1))).ptrArray = list.ptrArray := by
    funext r
    change (if r = list.ptrArrayCurr + 1 then _ else _) = _
    split
    next same => rw [same]
    next => rfl
  have same : SameRows list (list.withRow (list.ptrArray (list.ptrArrayCurr + 1))) :=
    ⟨rfl, rfl, rfl, pointers⟩
  exact same.rows rows inside

/-- A row is allocated. -/
theorem Rows.extend {malloc : Blocks → Nat → Option Nat} (allocates : Allocates malloc) {top row : Nat}
    (sized : Sized list e size) (rows : Rows list blocks top)
    (absent : list.ptrArray (list.ptrArrayCurr + 1) = 0)
    (granted : malloc blocks (e * rowEnd size list.ptrArrayCurr) = some row) :
    Rows (list.withRow row) ((row, e * rowEnd size list.ptrArrayCurr) :: blocks)
      (list.ptrArrayCurr + 1) := by
  have last : top = list.ptrArrayCurr := by
    have opened := rows.opened
    by_contra more
    exact rows.nonnull _ (by omega) absent
  have sized' : Sized (list.withRow row) e size :=
    ⟨sized.elemSize, sized.initAlloc, sized.bits, sized.pointer, sized.small, sized.few⟩
  have pointer : (list.withRow row).ptrArray (list.ptrArrayCurr + 1) = row := if_pos rfl
  have added : (list.withRow row).row (list.ptrArrayCurr + 1) =
      (row, e * rowEnd size list.ptrArrayCurr) := by
    rw [sized'.row_eq, pointer, rowSize_succ]
  have apart : ∀ r ≤ list.ptrArrayCurr,
      BlocksApart ((list.withRow row).row (list.ptrArrayCurr + 1)) ((list.withRow row).row r) := by
    intro r le
    rw [added, withRow_row_before list row le]
    exact allocates.apart _ _ _ granted _ (rows.allocated r (by omega))
  constructor
  · exact Nat.le_refl _
  · intro r le
    rcases Nat.le_or_eq_of_le_succ le with before | rfl
    · have other : ¬ r = list.ptrArrayCurr + 1 := by omega
      have kept : (list.withRow row).ptrArray r = list.ptrArray r := if_neg other
      rw [kept]
      exact rows.nonnull r (by omega)
    · rw [pointer]
      exact allocates.nonnull _ _ _ granted
  · intro r le
    rcases Nat.le_or_eq_of_le_succ le with before | rfl
    · rw [withRow_row_before list row before]
      exact List.mem_cons_of_mem _ (rows.allocated r (by omega))
    · rw [added]
      exact List.mem_cons_self
  · intro r le
    rcases Nat.le_or_eq_of_le_succ le with before | rfl
    · rw [withRow_row_before list row before]
      exact rows.bounded r (by omega)
    · rw [added]
      exact allocates.bounded _ _ _ granted
  · intro r le s le' distinct
    rcases Nat.le_or_eq_of_le_succ le with before | rfl
    · rcases Nat.le_or_eq_of_le_succ le' with before' | rfl
      · rw [withRow_row_before list row before, withRow_row_before list row before']
        exact rows.apart r (by omega) s (by omega) distinct
      · exact (apart r before).symm
    · rcases Nat.le_or_eq_of_le_succ le' with before' | rfl
      · exact apart s before'
      · exact absurd rfl distinct
  · intro r more
    have other : ¬ r = list.ptrArrayCurr + 1 := by omega
    have kept : (list.withRow row).ptrArray r = list.ptrArray r := if_neg other
    rw [kept]
    exact rows.unused r (by omega)

/-- What the loop does with one pointer to a row: a row is opened, or there is no memory. -/
theorem openRows_step (malloc : Blocks → Nat → Option Nat) (holds : Holds list blocks e size n)
    (room : n < 2 ^ 30) (full : n = rowEnd size list.ptrArrayCurr) (left : Nat) :
    openRows malloc 1 (left + 1) list blocks =
      (if list.ptrArray (list.ptrArrayCurr + 1) = 0 then blocks.alloc malloc (e * n)
        else some (list.ptrArray (list.ptrArrayCurr + 1), blocks)).map
          fun (row, blocks) => (row, list.withRow row, blocks) := by
  have cumul := holds.cumul
  rw [← full] at cumul
  have small := holds.small
  have positive : 0 < n := full ▸ rowEnd_pos holds.positive _
  have fits : e * n < 2 ^ 64 := by
    have bound : e * n ≤ 2 ^ 31 * 2 ^ 30 := Nat.mul_le_mul (by omega) (by omega)
    omega
  have request : allocSize list.cumulMaxElems list.elemSize = e * n := by
    rw [cumul, holds.elemSize, allocSize_natCast fits]
  have enough : ¬ int4Value (list.cumulMaxElems + 1) > int4Value (list.cumulMaxElems * 2) := by
    rw [cumul, int4Value_of_lt (by omega) (by omega), int4Value_of_lt (by omega) (by omega)]
    omega
  rw [openRows]
  dsimp only
  rw [request, Option.map_eq_bind]
  congr 1
  funext ⟨row, rest⟩
  exact if_neg enough

/-- Elements taken stand behind those in use. -/
theorem get_new_element_spec {malloc : Blocks → Nat → Option Nat} (allocates : Allocates malloc)
    (holds : Holds list blocks e size n) (room : n < 2 ^ 30) :
    (get_new_element malloc list blocks 1 = none ∧ ∃ bytes, malloc blocks bytes = none) ∨
      ∃ list' blocks', get_new_element malloc list blocks 1 =
          some ((list'.slot n : Int), list', blocks') ∧
        Holds list' blocks' e size (n + 1) ∧ (∀ i < n, list'.slot i = list.slot i) ∧
        list'.free_que = list.free_que := by
  obtain ⟨start, finish, _⟩ := holds.range
  rcases Nat.lt_or_eq_of_le finish with within | full
  · obtain ⟨list', result, holds', same, queue⟩ := get_new_element_within malloc holds room within
    exact .inr ⟨list', blocks, result, holds', fun i _ => same.slot i, queue⟩
  · have cumul := holds.cumul
    rw [← full] at cumul
    have overfull : ¬ int4Value (list.nElems + 1) ≤ list.cumulMaxElems := by
      rw [holds.nElems, cumul, int4Value_of_lt (by omega) (by omega)]
      omega
    have few : list.ptrArrayCurr < 30 := by
      have power : 2 ^ list.ptrArrayCurr ≤ rowEnd size list.ptrArrayCurr :=
        Nat.le_mul_of_pos_right _ holds.positive
      exact (Nat.pow_lt_pow_iff_right (by decide : 1 < 2)).mp (by omega)
    obtain ⟨left, pointers⟩ : ∃ left, ptrArrayLen - 1 - list.ptrArrayCurr = left + 1 :=
      ⟨ptrArrayLen - 2 - list.ptrArrayCurr, by rw [ptrArrayLen]; omega⟩
    have next := holds.next_row full
    have before : ∀ (row i : Nat), i < n → (list.withRow row).slot i = list.slot i := by
      intro row i inside
      apply withRow_slot_before
      rw [holds.initAlloc, Int.toNat_natCast]
      exact holds.rowOf_le inside
    have slot : ∀ row, Sized (list.withRow row) e size → (list.withRow row).slot n = row := by
      intro row sized
      have pointer : (list.withRow row).ptrArray (list.ptrArrayCurr + 1) = row := if_pos rfl
      rw [sized.slot_eq, next, pointer, rowOffset, next, rowStart_succ, ← full, Nat.sub_self,
        Nat.mul_zero, Nat.add_zero]
    obtain ⟨top, rows⟩ := holds.rows
    rw [get_new_element, if_neg (by decide), if_neg overfull, pointers,
      openRows_step malloc holds room full left]
    by_cases absent : list.ptrArray (list.ptrArrayCurr + 1) = 0
    · rw [if_pos absent]
      cases granted : malloc blocks (e * n) with
      | none =>
        left
        simp [Blocks.alloc, granted]
        exact ⟨_, granted⟩
      | some row =>
        right
        rw [full] at granted
        have rows' := rows.extend allocates holds.toSized absent granted
        have holds' := holds.withRow room full rows'
        refine ⟨list.withRow row, _, ?_, holds', before row, rfl⟩
        rw [← full] at granted ⊢
        simp [Blocks.alloc, granted, slot row holds'.toSized]
    · rw [if_neg absent]
      right
      have rows' := rows.reopen absent
      have holds' := holds.withRow room full rows'
      refine ⟨list.withRow (list.ptrArray (list.ptrArrayCurr + 1)), blocks, ?_, holds', before _, rfl⟩
      simp [slot _ holds'.toSized]

/-! ## Finding an element -/

/-- An element is found by its number. -/
theorem find_element_spec (holds : Holds list blocks e size n) {i : Nat} (inside : i < n)
    (near : e * rowOffset size i < 2 ^ 31) : find_element list i = some (list.slot i : Int) := by
  have count := holds.count
  have less : ¬ (i : Int) ≥ list.nElems := by
    rw [holds.nElems]
    omega
  have start := rowStart_rowOf_le size i
  have shifts : shiftCount (i : Int).toNat list.initAllocBits - list.initAllocBits = rowOf size i := by
    rw [Int.toNat_natCast, shiftCount_sub, ← holds.bits]
  have first : int4Value (list.initAlloc *
      (if rowOf size i ≠ 0 then int4Value (2 ^ (rowOf size i - 1)) else 0)) =
      rowStart size (rowOf size i) := by
    rw [holds.initAlloc]
    generalize rowOf size i = r at start
    cases r with
    | zero =>
      rw [if_neg (not_not_intro rfl), Int.mul_zero, rowStart_zero]
      rfl
    | succ r =>
      rw [rowStart_succ] at start ⊢
      have power : 2 ^ r ≤ rowEnd size r := Nat.le_mul_of_pos_right _ holds.positive
      have product : (size : Int) * ((2 ^ r : Nat) : Int) = rowEnd size r := by
        rw [rowEnd, Int.natCast_mul, Int.mul_comm]
      rw [if_pos (Nat.succ_ne_zero r), Nat.add_sub_cancel]
      have shifted : int4Value (2 ^ r) = ((2 ^ r : Nat) : Int) := by
        have cast : (2 : Int) ^ r = ((2 ^ r : Nat) : Int) := by push_cast; rfl
        rw [cast]
        generalize (2 ^ r : Nat) = place at power
        exact int4Value_of_lt (by omega) (by omega)
      rw [shifted, product]
      exact int4Value_of_lt (by omega) (by omega)
  have offset : ((i : Int) - (rowStart size (rowOf size i) : Int)) = (rowOffset size i : Nat) := by
    rw [rowOffset]
    omega
  have bounded : rowOffset size i ≤ i := Nat.sub_le _ _
  rw [find_element, if_neg less]
  dsimp only
  rw [shifts, first, offset, int4Value_of_lt (x := (rowOffset size i : Int)) (by omega) (by omega),
    holds.elemSize, ← Int.natCast_mul, holds.slot_eq]
  generalize e * rowOffset size i = bytes at near ⊢
  rw [int4Value_of_lt (by omega) (by omega)]
  push_cast
  rfl

theorem find_element_none (holds : Holds list blocks e size n) {i : Nat} (beyond : n ≤ i) :
    find_element list i = none := by
  rw [find_element, if_pos]
  rw [holds.nElems]
  omega

/-! ## Freeing at the end -/

/-- The bytes in use in the row of the last of `n` elements. -/
def usedBytes (e size n : Nat) : Nat := e * (n - rowStart size (rowOf size (n - 1)))

/-- Stepping back reaches the row of the last element that is left. -/
theorem freeRows_spec (target : Nat) (positive : 0 < size) :
    ∀ (r above : Nat) (rowElemsMax : Int), rowStart size r + above ≤ 2 ^ 30 → rowEnd size r < 2 ^ 31 →
      target ≤ rowStart size r + above → above ≤ rowSize size r → (0 < r → 0 < above) →
      (0 < r → rowElemsMax = rowStart size r) →
      ∃ numLeft rowElemsLeft : Int,
        freeRows size r ((rowStart size r + above - target : Nat) : Int) above rowElemsMax
            (rowEnd size r) =
          (rowOf size (target - 1), numLeft, rowElemsLeft, (rowEnd size (rowOf size (target - 1)) : Int)) ∧
        rowElemsLeft - numLeft = (target - rowStart size (rowOf size (target - 1)) : Nat) ∧
        rowStart size (rowOf size (target - 1)) ≤ target := by
  intro r
  induction r with
  | zero =>
    intro above rowElemsMax count _ le fits _ _
    rw [rowSize_zero] at fits
    rw [rowStart_zero, Nat.zero_add] at le ⊢
    have row : rowOf size (target - 1) = 0 := by
      apply rowOf_eq
      · exact Nat.zero_le _
      · rw [rowEnd_zero]
        omega
    refine ⟨_, _, by rw [freeRows, row], ?_, ?_⟩
    · rw [row, rowStart_zero]
      omega
    · rw [row, rowStart_zero]
      exact Nat.zero_le _
  | succ r ih =>
    intro above rowElemsMax count total le fits some previous
    have nonempty := some (Nat.succ_pos r)
    have max := previous (Nat.succ_pos r)
    rw [rowStart_succ] at count le max ⊢
    rw [rowSize_succ] at fits
    have before := rowStart_lt_rowEnd positive r
    rw [freeRows]
    split
    next whole =>
      have down : target ≤ rowEnd size r := by omega
      have left : int4Value (((rowEnd size r + above - target : Nat) : Int) - above) =
          (rowStart size r + rowSize size r - target : Nat) := by
        rw [rowSize, int4Value_of_lt (by omega) (by omega)]
        omega
      have room : int4Value ((rowEnd size (r + 1) : Int) - rowElemsMax) = rowEnd size r := by
        rw [max, rowEnd_succ, int4Value_of_lt (by omega) (by omega)]
        omega
      have elements : (if rowElemsMax ≠ size then rowElemsMax / 2 else rowElemsMax) =
          (rowSize size r : Int) ∧ (0 < r → (rowSize size r : Int) = rowStart size r) := by
        rw [max]
        cases r with
        | zero =>
          rw [rowEnd_zero, if_neg (not_not_intro rfl), rowSize_zero]
          exact ⟨rfl, fun less => absurd less (Nat.lt_irrefl 0)⟩
        | succ s =>
          have first : size ≤ rowEnd size s := Nat.le_mul_of_pos_left _ (Nat.two_pow_pos s)
          rw [rowSize_succ, rowEnd_succ, rowStart_succ, if_pos (by omega)]
          exact ⟨by omega, fun _ => rfl⟩
      dsimp only
      rw [left, room, elements.1]
      apply ih
      · rw [rowSize]
        omega
      · omega
      · rw [rowSize]
        omega
      · exact Nat.le_refl _
      · intro _
        rw [rowSize]
        omega
      · exact elements.2
    next part =>
      have row : rowOf size (target - 1) = r + 1 := by
        apply rowOf_eq
        · rw [rowStart_succ]
          omega
        · rw [rowEnd_succ]
          omega
      refine ⟨_, _, by rw [row], ?_, ?_⟩
      · rw [row, rowStart_succ]
        omega
      · rw [row, rowStart_succ]
        omega

/-- Elements are freed from the end. -/
theorem free_last_n_elements_spec (holds : Holds list blocks e size n) {num : Nat} (le : num ≤ n)
    (used : usedBytes e size n < 2 ^ 31) (left : usedBytes e size (n - num) < 2 ^ 31) :
    ∃ list', free_last_n_elements list num = (true, list') ∧
      Holds list' blocks e size (n - num) ∧ SameRows list list' ∧ list'.free_que = list.free_que := by
  obtain ⟨start, finish, later⟩ := holds.range
  have pointer := holds.pointer
  have small := holds.small
  have count := holds.count
  have enough : list.nElems ≥ num := by
    rw [holds.nElems]
    omega
  have inRow : (int4Value (list.nextFreePtr - list.ptrArray list.ptrArrayCurr)).tdiv list.elemSize =
      (n - rowStart size list.ptrArrayCurr : Nat) := by
    rw [usedBytes, ← holds.curr] at used
    have difference : list.nextFreePtr - list.ptrArray list.ptrArrayCurr =
        (e * (n - rowStart size list.ptrArrayCurr) : Nat) := by
      rw [holds.next]
      push_cast
      ring
    rw [difference, holds.elemSize]
    generalize elements : n - rowStart size list.ptrArrayCurr = k at used ⊢
    rw [int4Value_of_lt (by omega) (by omega), Int.natCast_mul]
    exact Int.mul_tdiv_cancel_left _ (by omega)
  have before : int4Value (list.nElems - (n - rowStart size list.ptrArrayCurr : Nat)) =
      rowStart size list.ptrArrayCurr := by
    rw [holds.nElems, int4Value_of_lt (by omega) (by omega)]
    omega
  have bounded : rowEnd size list.ptrArrayCurr < 2 ^ 31 := by
    have few := holds.few
    cases row : list.ptrArrayCurr with
    | zero =>
      rw [rowEnd_zero]
      omega
    | succ r =>
      rw [row, rowStart_succ] at later
      have less := later (Nat.succ_pos r)
      rw [rowEnd_succ]
      omega
  obtain ⟨numLeft, rowElemsLeft, reached, remaining, kept⟩ :=
    freeRows_spec (n - num) holds.positive list.ptrArrayCurr
      (n - rowStart size list.ptrArrayCurr) (rowStart size list.ptrArrayCurr) (by omega) bounded (by omega)
      (by rw [rowSize]; omega) (fun opened => by have less := later opened; omega) (fun _ => rfl)
  have freed : rowStart size list.ptrArrayCurr + (n - rowStart size list.ptrArrayCurr) - (n - num) = num := by
    omega
  rw [freed] at reached
  let list' := { list with
    cumulMaxElems := (rowEnd size (rowOf size (n - num - 1)) : Int)
    nElems := int4Value (list.nElems - num)
    ptrArrayCurr := rowOf size (n - num - 1)
    nextFreePtr := list.ptrArray (rowOf size (n - num - 1)) +
      int4Value (list.elemSize * int4Value (rowElemsLeft - numLeft)) }
  have same : SameRows list list' := ⟨rfl, rfl, rfl, rfl⟩
  obtain ⟨top, rows⟩ := holds.rows
  have opened : rowOf size (n - num - 1) ≤ list.ptrArrayCurr := by
    rcases Nat.eq_zero_or_pos (n - num) with none | more
    · rw [none, rowOf_eq (Nat.zero_le _) (rowEnd_pos holds.positive 0)]
      exact Nat.zero_le _
    · exact holds.rowOf_le (by omega)
  refine ⟨list', ?_, ⟨same.sized holds.toSized, ?_, rfl, rfl, ?_, by omega, top,
    same.rows rows (opened.trans rows.opened)⟩, same, rfl⟩
  · rw [← holds.initAlloc, ← holds.cumul] at reached
    rw [free_last_n_elements, if_pos enough]
    dsimp only
    rw [inRow, before, reached]
  · change int4Value (list.nElems - num) = _
    rw [holds.nElems, int4Value_of_lt (by omega) (by omega)]
    omega
  · change (list.ptrArray (rowOf size (n - num - 1)) : Int) +
      int4Value (list.elemSize * int4Value (rowElemsLeft - numLeft)) = _
    rw [usedBytes] at left
    rw [remaining, holds.elemSize, int4Value_of_lt (x := ((n - num - _ : Nat) : Int)) (by omega) (by omega),
      ← Int.natCast_mul]
    generalize e * (n - num - rowStart size (rowOf size (n - num - 1))) = bytes at left ⊢
    rw [int4Value_of_lt (by omega) (by omega)]

/-! ## Copying -/

/-- What copying leaves: the elements from a row on stand in the buffer, and nothing else
is written. -/
theorem copyRows_spec (holds : Holds list blocks e size n) {dst total : Nat} (le : total ≤ n)
    (apart : ∀ i < total, BlocksApart (dst, e * total) (list.slot i, e)) :
    ∀ (left r : Nat) (mem : ByteMemory), r ≤ rowOf size (total - 1) →
      rowOf size (total - 1) < r + left →
      ∃ mem', copyRows list left r (total - rowStart size r : Nat) (rowSize size r) (rowEnd size r)
          (dst + e * rowStart size r) (e * rowStart size r) mem = some (e * total, mem') ∧
        (∀ i, rowStart size r ≤ i → i < total → mem'.read (dst + e * i) e = mem.read (list.slot i) e) ∧
        ∀ a, a < dst + e * rowStart size r ∨ dst + e * total ≤ a → mem' a = mem a := by
  have count := holds.count
  have small := holds.small
  intro left
  induction left with
  | zero =>
    intro r mem upTo enough
    omega
  | succ left ih =>
    intro r mem upTo enough
    have last := rowStart_rowOf_le size (total - 1)
    have start : rowStart size r ≤ total := by
      cases r with
      | zero => exact Nat.zero_le _
      | succ s =>
        obtain ⟨t, equal⟩ : ∃ t, rowOf size (total - 1) = t + 1 := ⟨rowOf size (total - 1) - 1, by omega⟩
        rw [equal, rowStart_succ] at last
        have mono : rowEnd size s ≤ rowEnd size t := rowEnd_mono (by omega)
        rw [rowStart_succ]
        omega
    have fits : ∀ k, k ≤ total → allocSize (k : Nat) list.elemSize = e * k := by
      intro k le'
      have bound : e * k ≤ 2 ^ 31 * 2 ^ 30 := Nat.mul_le_mul (by omega) (by omega)
      rw [holds.elemSize, allocSize_natCast (by omega)]
    -- the elements of this row are moved together
    have moved : ∀ k, k ≤ total - rowStart size r → k ≤ rowSize size r →
        ∀ i, rowStart size r ≤ i → i < rowStart size r + k →
        (mem.memmove (dst + e * rowStart size r) (list.ptrArray r) (e * k)).read (dst + e * i) e =
          mem.read (list.slot i) e := by
      intro k short inRow i from' upTo
      obtain ⟨j, rfl⟩ := Nat.exists_eq_add_of_le from'
      have row : rowOf size (rowStart size r + j) = r := by
        apply rowOf_eq from'
        rw [rowSize] at inRow
        omega
      have place : e * (j + 1) ≤ e * k := Nat.mul_le_mul_left e (by omega)
      rw [Nat.mul_add, Nat.mul_one] at place
      have slot : list.slot (rowStart size r + j) = list.ptrArray r + e * j := by
        rw [holds.slot_eq, rowOffset, row, Nat.add_sub_cancel_left]
      have target : dst + e * (rowStart size r + j) =
          list.slot (rowStart size r + j) - list.ptrArray r + (dst + e * rowStart size r) := by
        rw [slot, Nat.mul_add]
        omega
      rw [target]
      apply ByteMemory.read_memmove_inside
      · omega
      · omega
    have target : ∀ k, k ≤ total - rowStart size r → e * rowStart size r + e * k ≤ e * total := by
      intro k short
      rw [← Nat.mul_add]
      exact Nat.mul_le_mul_left e (by omega)
    rw [copyRows]
    by_cases further : rowEnd size r < total
    · have whole : ¬ ((total - rowStart size r : Nat) : Int) < rowSize size r := by
        rw [rowSize]
        omega
      have before := rowStart_lt_rowEnd holds.positive r
      have more : int4Value (((total - rowStart size r : Nat) : Int) - rowSize size r) =
          (total - rowStart size (r + 1) : Nat) := by
        rw [rowSize, rowStart_succ, int4Value_of_lt (by omega) (by omega)]
        omega
      have twice : int4Value ((rowEnd size r : Int) * 2) = rowEnd size (r + 1) := by
        rw [rowEnd_succ, int4Value_of_lt (by omega) (by omega)]
        push_cast
        ring
      have nonzero : ¬ ((total - rowStart size (r + 1) : Nat) : Int) = 0 := by
        rw [rowStart_succ]
        omega
      have sum : e * rowStart size r + e * rowSize size r = e * rowStart size (r + 1) := by
        rw [← Nat.mul_add, rowStart_add_rowSize holds.positive, rowStart_succ]
      have later : r + 1 ≤ rowOf size (total - 1) := by
        by_contra stop
        have here : rowOf size (total - 1) = r := by omega
        have finish := lt_rowEnd_rowOf holds.positive (total - 1)
        rw [here] at finish
        omega
      rw [if_neg whole, if_neg whole, more, if_neg nonzero, fits _ (by rw [rowSize]; omega), twice,
        Nat.add_assoc, sum, ← rowSize_succ]
      obtain ⟨mem', result, copied, frame⟩ := ih (r + 1)
        (mem.memmove (dst + e * rowStart size r) (list.ptrArray r) (e * rowSize size r)) later (by omega)
      refine ⟨mem', result, ?_, ?_⟩
      · intro i from' upTo
        by_cases inRow : i < rowStart size (r + 1)
        · have ends : e * (i + 1) ≤ e * rowStart size (r + 1) := Nat.mul_le_mul_left e inRow
          rw [Nat.mul_add, Nat.mul_one] at ends
          have kept : mem'.read (dst + e * i) e = ByteMemory.read
              (mem.memmove (dst + e * rowStart size r) (list.ptrArray r) (e * rowSize size r))
              (dst + e * i) e := by
            apply ByteMemory.read_congr
            intro j less
            exact frame _ (.inl (by omega))
          rw [kept]
          apply moved _ _ (Nat.le_refl _) i from'
          · rw [rowSize]
            rw [rowStart_succ] at inRow
            omega
          · rw [rowSize]
            omega
        · rw [copied i (by omega) upTo]
          apply ByteMemory.read_memmove_of_apart
          have free := apart i upTo
          have room := target (rowSize size r) (by rw [rowSize]; omega)
          rw [BlocksApart] at free
          dsimp only at free
          omega
      · intro a outside
        have room := target (rowSize size r) (by rw [rowSize]; omega)
        rw [frame a (by omega)]
        exact ByteMemory.memmove_of_outside (by omega)
    · have finish : total ≤ rowEnd size r := by omega
      have elements : (if ((total - rowStart size r : Nat) : Int) < rowSize size r
          then ((total - rowStart size r : Nat) : Int) else rowSize size r) =
          (total - rowStart size r : Nat) := by
        split
        · rfl
        · rw [rowSize] at *
          omega
      have none : (if ((total - rowStart size r : Nat) : Int) < rowSize size r then 0
          else int4Value (((total - rowStart size r : Nat) : Int) - (total - rowStart size r : Nat))) = 0 := by
        split
        · rfl
        · rw [Int.sub_self]
          rfl
      have sum : e * rowStart size r + e * (total - rowStart size r) = e * total := by
        rw [← Nat.mul_add, Nat.add_sub_cancel' start]
      rw [elements, none, if_pos rfl, fits _ (by omega), sum]
      refine ⟨_, rfl, ?_, ?_⟩
      · intro i from' upTo
        apply moved _ (Nat.le_refl _) _ i from' (by omega)
        rw [rowSize]
        omega
      · intro a outside
        exact ByteMemory.memmove_of_outside (by omega)

/-! ## Elements freed at the end -/

section StackRuns

variable (malloc : Blocks → Nat → Option Nat) (elemSize initAlloc : Nat)

/-- The next element starts less than `2 ^ 31` bytes behind the beginning of its row. -/
def NextInReach (list : BuddyList) : Prop :=
  list.nElems < 2 ^ 30 ∧
    list.elemSize.toNat * rowOffset list.initAlloc.toNat list.nElems.toNat < 2 ^ 31

/-- Of the last row, before and after, less than `2 ^ 31` bytes are in use. -/
def LastInReach (list : BuddyList) (num : Nat) : Prop :=
  usedBytes list.elemSize.toNat list.initAlloc.toNat list.nElems.toNat < 2 ^ 31 ∧
    usedBytes list.elemSize.toNat list.initAlloc.toNat (list.nElems.toNat - num) < 2 ^ 31

/-- The containers reached from a new one, and the elements that were handed out and not
freed since, the oldest first. -/
inductive StackRun : BuddyList → Blocks → List Nat → Prop
  | start {blocks blocks' list} : Creatable elemSize initAlloc →
      initialize_list malloc blocks elemSize initAlloc = some (list, blocks') →
      StackRun list blocks' []
  | get {list blocks slots elem list' blocks'} : StackRun list blocks slots → list.NextInReach →
      get_new_element malloc list blocks 1 = some (((elem : Nat) : Int), list', blocks') →
      StackRun list' blocks' (slots ++ [elem])
  | free {list blocks slots num list'} : StackRun list blocks slots → list.LastInReach num →
      free_last_n_elements list (num : Nat) = (true, list') →
      StackRun list' blocks (slots.take (slots.length - num))

/-- The container is a stack of slots. -/
structure Stack (list : BuddyList) (blocks : Blocks) (slots : List Nat) : Prop where
  size : elemSize ≤ list.elemSize.toNat
  nElems : list.nElems = slots.length
  found : ∀ i : Nat, find_element list i = slots[i]?.map Int.ofNat
  apart : slots.Pairwise fun a b => BlocksApart (a, list.elemSize.toNat) (b, list.elemSize.toNat)
  inside : ∀ s ∈ slots, ∃ block ∈ blocks, block.1 ≤ s ∧ s + list.elemSize.toNat ≤ block.1 + block.2
  cumul : list.cumulMaxElems = rowEnd list.initAlloc.toNat list.ptrArrayCurr
  curr : rowStart list.initAlloc.toNat list.ptrArrayCurr ≤ slots.length ∧
    slots.length ≤ rowEnd list.initAlloc.toNat list.ptrArrayCurr ∧
    (0 < list.ptrArrayCurr → rowStart list.initAlloc.toNat list.ptrArrayCurr < slots.length)
  next : list.nextFreePtr = list.ptrArray list.ptrArrayCurr + list.elemSize.toNat *
    (slots.length - rowStart list.initAlloc.toNat list.ptrArrayCurr : Nat)
  copied : ∀ n ≤ slots.length, ∀ (dst : Nat) (mem : ByteMemory),
    (∀ s ∈ slots.take n, BlocksApart (dst, list.elemSize.toNat * n) (s, list.elemSize.toNat)) →
    ∃ mem', copy_list_to_buf list n dst mem = some (list.elemSize.toNat * n, mem') ∧
      mem'.read dst (list.elemSize.toNat * n) =
        (slots.take n).flatMap (fun s => mem.read s list.elemSize.toNat) ∧
      ∀ a, a < dst ∨ dst + list.elemSize.toNat * n ≤ a → mem' a = mem a

end StackRuns

variable {malloc : Blocks → Nat → Option Nat} {elemSize initAlloc : Nat} {slots : List Nat}

/-- What every step of a run keeps: the elements handed out are the slots in order, and
all are in reach. -/
structure StackInv (elemSize : Nat) (list : BuddyList) (blocks : Blocks) (slots : List Nat) : Prop where
  holds : ∃ e size, Holds list blocks e size slots.length ∧ elemSize ≤ e ∧
    ∀ i < slots.length, e * rowOffset size i < 2 ^ 31
  slots : ∀ i < slots.length, slots[i]? = some (list.slot i)

/-- The invariant of a run of the stack. -/
theorem stackRun_inv (allocates : Allocates malloc)
    (run : StackRun malloc elemSize initAlloc list blocks slots) : StackInv elemSize list blocks slots := by
  induction run with
  | start creatable created =>
    obtain ⟨e, size, holds, enough, _⟩ := initialize_list_spec allocates creatable created
    exact ⟨⟨e, size, holds, enough, fun i less => absurd less (Nat.not_lt_zero i)⟩,
      fun i less => absurd less (Nat.not_lt_zero i)⟩
  | @get list blocks slots elem list' blocks' _ reach result inv =>
    obtain ⟨⟨e, size, holds, enough, near⟩, order⟩ := inv
    obtain ⟨room, close⟩ := reach
    rw [holds.nElems] at room
    rw [holds.elemSize, holds.initAlloc, holds.nElems, Int.toNat_natCast, Int.toNat_natCast,
      Int.toNat_natCast] at close
    rcases get_new_element_spec allocates holds (by omega) with ⟨fails, _⟩ | ⟨list₁, blocks₁, given, holds', same, _⟩
    · exact nomatch fails.symm.trans result
    · obtain ⟨slot, rest⟩ := Prod.mk.inj (Option.some.inj (given.symm.trans result))
      obtain ⟨rfl, rfl⟩ := Prod.mk.inj rest
      rw [Int.natCast_inj] at slot
      have length : (slots ++ [elem]).length = slots.length + 1 := List.length_append
      refine ⟨⟨e, size, length ▸ holds', enough, ?_⟩, ?_⟩
      · rw [length]
        intro i less
        rcases Nat.lt_succ_iff_lt_or_eq.mp less with before | rfl
        · exact near i before
        · exact close
      · rw [length]
        intro i less
        rcases Nat.lt_succ_iff_lt_or_eq.mp less with before | rfl
        · rw [List.getElem?_append_left before, same i before]
          exact order i before
        · rw [List.getElem?_concat_length, slot]
  | @free list blocks slots num list' _ reach result inv =>
    obtain ⟨⟨e, size, holds, enough, near⟩, order⟩ := inv
    obtain ⟨used, left⟩ := reach
    rw [holds.elemSize, holds.initAlloc, holds.nElems, Int.toNat_natCast, Int.toNat_natCast,
      Int.toNat_natCast] at used left
    have le : num ≤ slots.length := by
      by_contra more
      have refused : free_last_n_elements list num = (false, list) := by
        rw [free_last_n_elements, if_neg]
        rw [holds.nElems]
        omega
      exact nomatch (Prod.mk.inj (refused.symm.trans result)).1
    obtain ⟨list₁, given, holds', same, _⟩ := free_last_n_elements_spec holds le used left
    obtain ⟨_, rfl⟩ := Prod.mk.inj (given.symm.trans result)
    have length : (slots.take (slots.length - num)).length = slots.length - num := by
      rw [List.length_take]
      omega
    refine ⟨⟨e, size, by rw [length]; exact holds', enough, ?_⟩, ?_⟩
    · rw [length]
      intro i less
      exact near i (by omega)
    · rw [length]
      intro i less
      rw [List.getElem?_take_of_lt less, same.slot]
      exact order i (by omega)

/-- In every state reached, the container is the stack of the elements handed out. -/
theorem StackInv.stack (inv : StackInv elemSize list blocks slots) : Stack elemSize list blocks slots := by
  obtain ⟨⟨e, size, holds, enough, near⟩, order⟩ := inv
  have element : list.elemSize.toNat = e := by rw [holds.elemSize, Int.toNat_natCast]
  have first : list.initAlloc.toNat = size := by rw [holds.initAlloc, Int.toNat_natCast]
  have slot : ∀ (i : Nat) (less : i < slots.length), slots[i] = list.slot i := by
    intro i less
    exact Option.some.inj ((List.getElem?_eq_getElem less).symm.trans (order i less))
  obtain ⟨top, rows⟩ := holds.rows
  constructor
  · rw [element]
    exact enough
  · exact holds.nElems
  · intro i
    by_cases less : i < slots.length
    · rw [order i less, find_element_spec holds less (near i less)]
      rfl
    · rw [find_element_none holds (Nat.not_lt.mp less), List.getElem?_eq_none (Nat.not_lt.mp less)]
      rfl
  · rw [List.pairwise_iff_getElem, element]
    intro i j less less' before
    rw [slot i less, slot j less']
    exact holds.slot_apart less less' before.ne
  · intro s member
    obtain ⟨i, less, rfl⟩ := List.mem_iff_getElem.mp member
    have inside := holds.slot_inside i
    have row := holds.rowOf_le less
    have opened := rows.opened
    rw [slot i less, element]
    exact ⟨_, rows.allocated _ (row.trans opened), inside⟩
  · rw [first]
    exact holds.cumul
  · rw [first]
    exact holds.range
  · rw [first, element]
    exact holds.next
  · rw [element]
    intro n le dst mem apart
    have each : ∀ i < n, BlocksApart (dst, e * n) (list.slot i, e) := by
      intro i less
      have position : i < (slots.take n).length := by
        rw [List.length_take]
        omega
      have member : (slots.take n)[i] ∈ slots.take n := List.getElem_mem position
      rw [List.getElem_take, slot i (by omega)] at member
      exact apart _ member
    have rowsEnough : rowOf size (n - 1) < 0 + ptrArrayLen := by
      have count := holds.count
      have start := rowStart_rowOf_le size (n - 1)
      rw [ptrArrayLen]
      generalize rowOf size (n - 1) = r at start
      cases r with
      | zero => omega
      | succ r =>
        have power : 2 ^ r ≤ rowEnd size r := Nat.le_mul_of_pos_right _ holds.positive
        rw [rowStart_succ] at start
        have few : r < 31 := (Nat.pow_lt_pow_iff_right (by decide : 1 < 2)).mp (by omega)
        omega
    obtain ⟨mem', result, copied, frame⟩ := copyRows_spec holds le each ptrArrayLen 0 mem
      (Nat.zero_le _) rowsEnough
    rw [rowStart_zero, Nat.sub_zero, rowSize_zero, rowEnd_zero, Nat.mul_zero, Nat.add_zero,
      ← holds.initAlloc] at result
    rw [rowStart_zero, Nat.mul_zero, Nat.add_zero] at frame
    refine ⟨mem', result, ?_, frame⟩
    rw [ByteMemory.read_mul, List.flatMap_def, List.flatMap_def]
    congr 1
    apply List.ext_getElem
    · rw [List.length_map, List.length_map, List.length_range, List.length_take]
      omega
    · intro i less _
      rw [List.length_map, List.length_range] at less
      rw [List.getElem_map, List.getElem_map, List.getElem_range, List.getElem_take,
        slot i (by omega)]
      exact copied i (Nat.zero_le i) less

end BuddyList

end Ydb
