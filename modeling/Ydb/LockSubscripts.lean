import Mathlib.Tactic.Linarith
import Ydb.Lib.ByteMemory
import Ydb.Lib.MachineWords

/-!
# Subscripts of locks

The subscripts of the nodes of a lock tree stand one behind the other in the shared
lock space. An entry and the node it belongs to point to each other by relative
pointers; an entry that points to no node is abandoned. Collection slides the other
entries down.
-/

namespace Ydb

open Lib

/-! ## Relative pointers -/

/-- A self-relative pointer. -/
def loadPtroff (mem : ByteMemory) (addr : Nat) : Int := (word (mem.read addr 8)).toInt

/-- Store a self-relative pointer. -/
def storePtroff (mem : ByteMemory) (addr : Nat) (value : Int) : ByteMemory :=
  mem.store addr (wordBytes (BitVec.ofInt 64 value))

/-- The absolute address for the relative pointer stored at an address. -/
def R2A (mem : ByteMemory) (addr : Nat) : Int := addr + loadPtroff mem addr

def ROUND_UP (value modulus : Nat) : Nat := (value + (modulus - 1)) / modulus * modulus

/-! ## The lock space -/

/-- The fields of `mlk_ctldata`, as addresses. -/
def mlk_ctldata.subbase (ctl : Nat) : Nat := ctl + 40

/-- Where the free space begins. -/
def mlk_ctldata.subfree (ctl : Nat) : Nat := ctl + 48

/-- The subscript of a node is the first field of the node. -/
def mlk_shrblk.value (b : Nat) : Nat := b

/-- Where an entry's owner is noted. -/
def mlk_shrsub.backpointer (p : Nat) : Nat := p

/-- Where an entry's length stands. -/
def mlk_shrsub.length (p : Nat) : Nat := p + 8

/-- Where an entry's bytes stand. -/
def mlk_shrsub.data (p : Nat) : Nat := p + 9

/-- The space for an entry with so many bytes of data. -/
def shrsubSize (length : UInt8) : Nat := ROUND_UP (9 + length.toNat) 8

/-- The size of an entry. -/
def MLK_SHRSUB_SIZE (mem : ByteMemory) (p : Nat) : Nat := shrsubSize (mem (mlk_shrsub.length p))

theorem shrsubSize_pos (length : UInt8) : 9 ≤ shrsubSize length := by
  rw [shrsubSize, ROUND_UP]
  omega

theorem shrsubSize_le (length : UInt8) : shrsubSize length < 512 := by
  have small := length.toNat_lt
  rw [shrsubSize, ROUND_UP]
  omega

/-! ## Collection -/

/-- One turn of the loop: the entry at `p` is abandoned, stays or moves by `delta`. -/
def collectTurn (mem : ByteMemory) (p : Nat) (delta : Int) : ByteMemory × Int :=
  let n := int4Value (MLK_SHRSUB_SIZE mem p)
  let bckp := loadPtroff mem (mlk_shrsub.backpointer p)
  if bckp = 0 then (mem, int4Value (delta + n))
  else if delta ≠ 0 then
    let b := ((mlk_shrsub.backpointer p : Int) + bckp).toNat
    let mem := storePtroff mem (mlk_shrblk.value b) (loadPtroff mem (mlk_shrblk.value b) - delta)
    let mem := storePtroff mem (mlk_shrsub.backpointer p) (bckp + delta)
    (mem.memmove ((p : Int) - delta).toNat p n.toNat, delta)
  else (mem, delta)

/-- The collector's loop over the entries. -/
def collectLoop (f : Nat) (mem : ByteMemory) (p : Nat) (delta : Int) : ByteMemory × Int :=
  if _before : p < f then
    let turn := collectTurn mem p delta
    collectLoop f turn.1 (p + MLK_SHRSUB_SIZE mem p) turn.2
  else (mem, delta)
termination_by f - p
decreasing_by
  have forward : 9 ≤ MLK_SHRSUB_SIZE mem p := shrsubSize_pos (mem (mlk_shrsub.length p))
  omega

/-- Move the entries in use together. -/
def mlk_shrsub_garbage_collect (ctl : Nat) (mem : ByteMemory) : ByteMemory :=
  let p := (R2A mem (mlk_ctldata.subbase ctl)).toNat
  let f := (R2A mem (mlk_ctldata.subfree ctl)).toNat
  let (mem, delta) := collectLoop f mem p 0
  storePtroff mem (mlk_ctldata.subfree ctl) (loadPtroff mem (mlk_ctldata.subfree ctl) - delta)

/-! ## Loads and stores -/

theorem loadPtroff_congr {mem mem' : ByteMemory} {addr addr' : Nat}
    (same : ∀ i < 8, mem' (addr' + i) = mem (addr + i)) : loadPtroff mem' addr' = loadPtroff mem addr := by
  rw [loadPtroff, ByteMemory.read_congr same, loadPtroff]

theorem storePtroff_of_outside {mem : ByteMemory} {addr a : Nat} {value : Int}
    (outside : a < addr ∨ addr + 8 ≤ a) : storePtroff mem addr value a = mem a := by
  apply ByteMemory.store_of_outside
  rwa [length_wordBytes]

/-- Offsets between addresses below `2 ^ 63` are represented. -/
theorem loadPtroff_storePtroff (mem : ByteMemory) (addr : Nat) {value : Int}
    (low : -2 ^ 63 ≤ value) (high : value < 2 ^ 63) :
    loadPtroff (storePtroff mem addr value) addr = value := by
  have bytes := ByteMemory.read_store mem addr (wordBytes (BitVec.ofInt 64 value))
  rw [length_wordBytes] at bytes
  rw [loadPtroff, storePtroff, bytes, word_wordBytes, BitVec.toInt_ofInt]
  exact Int.bmod_eq_of_le (by omega) (by omega)

/-! ## The layout -/

/-- An entry: the node it belongs to, if any, and the bytes behind its pointer, with
those that fill up its space. -/
structure Shrsub where
  owner : Option Nat
  length : UInt8
  data : List UInt8
  sized : 9 + data.length = shrsubSize length

namespace Shrsub

/-- The size of an entry. -/
def size (e : Shrsub) : Nat := shrsubSize e.length

/-- Whether an entry is in use. -/
def live (e : Shrsub) : Bool := e.owner.isSome

/-- The entry stands at an address. An entry in use and its node point to each other. -/
structure At (mem : ByteMemory) (p : Nat) (e : Shrsub) : Prop where
  length : mem (mlk_shrsub.length p) = e.length
  data : mem.read (mlk_shrsub.data p) e.data.length = e.data
  abandoned : e.owner = none → loadPtroff mem (mlk_shrsub.backpointer p) = 0
  backpointer : ∀ b, e.owner = some b → R2A mem (mlk_shrsub.backpointer p) = b
  value : ∀ b, e.owner = some b → R2A mem (mlk_shrblk.value b) = p

end Shrsub

/-- The space that entries take up. -/
def shrsubSpace (es : List Shrsub) : Nat := (es.map Shrsub.size).sum

/-- The owners of entries. -/
def shrsubOwners (es : List Shrsub) : List Nat := es.filterMap Shrsub.owner

/-- The entries stand one behind the other from an address on. -/
def Shrsubs (mem : ByteMemory) : Nat → List Shrsub → Prop
  | _, [] => True
  | p, e :: es => e.At mem p ∧ Shrsubs mem (p + e.size) es

/-- The words at two addresses do not touch each other. -/
def WordsApart (a b : Nat) : Prop := a + 8 ≤ b ∨ b + 8 ≤ a

/-- A lock space: the control data, then the nodes, then the entries up to `subfree`.
The space is less than `2 ^ 31` bytes long, its size being a 32-bit integer. -/
structure SubscriptSpace (mem : ByteMemory) (ctl base : Nat) (es : List Shrsub) : Prop where
  subbase : R2A mem (mlk_ctldata.subbase ctl) = base
  subfree : R2A mem (mlk_ctldata.subfree ctl) = base + shrsubSpace es
  entries : Shrsubs mem base es
  nodes : ∀ b ∈ shrsubOwners es, ctl + 64 ≤ b ∧ b + 8 ≤ base
  distinct : (shrsubOwners es).Pairwise WordsApart
  control : ctl + 64 ≤ base
  small : shrsubSpace es < 2 ^ 31
  bounded : base + shrsubSpace es < 2 ^ 63

/-! ## One turn -/

namespace Shrsub

variable {mem mem' : ByteMemory} {p : Nat} {e : Shrsub}

theorem size_eq (e : Shrsub) : e.size = 9 + e.data.length := e.sized.symm

theorem MLK_SHRSUB_SIZE_eq (here : e.At mem p) : MLK_SHRSUB_SIZE mem p = e.size := by
  rw [MLK_SHRSUB_SIZE, here.length, size]

/-- An entry is determined by its bytes and the pointer of its node. -/
theorem At.congr (here : e.At mem p) (bytes : ∀ a, p ≤ a → a < p + e.size → mem' a = mem a)
    (word : ∀ b, e.owner = some b → ∀ i < 8, mem' (b + i) = mem (b + i)) : e.At mem' p := by
  have space := e.size_eq
  have pointer : loadPtroff mem' (mlk_shrsub.backpointer p) = loadPtroff mem (mlk_shrsub.backpointer p) := by
    apply loadPtroff_congr
    intro i inside
    exact bytes _ (by rw [mlk_shrsub.backpointer]; omega) (by rw [mlk_shrsub.backpointer]; omega)
  constructor
  · rw [← here.length]
    exact bytes _ (by rw [mlk_shrsub.length]; omega) (by rw [mlk_shrsub.length]; omega)
  · refine (ByteMemory.read_congr ?_).trans here.data
    intro i inside
    exact bytes _ (by rw [mlk_shrsub.data]; omega) (by rw [mlk_shrsub.data]; omega)
  · intro none
    exact pointer.trans (here.abandoned none)
  · intro b owned
    rw [R2A, pointer]
    exact here.backpointer b owned
  · intro b owned
    have same : loadPtroff mem' (mlk_shrblk.value b) = loadPtroff mem (mlk_shrblk.value b) :=
      loadPtroff_congr (word b owned)
    rw [R2A, same]
    exact here.value b owned

end Shrsub

theorem Shrsubs.congr {mem mem' : ByteMemory} {p : Nat} {es : List Shrsub} (entries : Shrsubs mem p es)
    (bytes : ∀ a, p ≤ a → a < p + shrsubSpace es → mem' a = mem a)
    (words : ∀ b ∈ shrsubOwners es, ∀ i < 8, mem' (b + i) = mem (b + i)) : Shrsubs mem' p es := by
  induction es generalizing p with
  | nil => trivial
  | cons e es ih =>
    obtain ⟨first, rest⟩ := entries
    have space : shrsubSpace (e :: es) = e.size + shrsubSpace es := by simp [shrsubSpace]
    constructor
    · apply first.congr
      · intro a start finish
        exact bytes a start (by omega)
      · intro b owned
        exact words b (List.mem_filterMap.mpr ⟨e, List.mem_cons_self, owned⟩)
    · apply ih rest
      · intro a start finish
        exact bytes a (by omega) (by omega)
      · intro b member
        obtain ⟨other, among, owned⟩ := List.mem_filterMap.mp member
        exact words b (List.mem_filterMap.mpr ⟨other, List.mem_cons_of_mem e among, owned⟩)

theorem shrsubs_append {mem : ByteMemory} {p : Nat} {es fs : List Shrsub} :
    Shrsubs mem p (es ++ fs) ↔ Shrsubs mem p es ∧ Shrsubs mem (p + shrsubSpace es) fs := by
  induction es generalizing p with
  | nil => simp [Shrsubs, shrsubSpace]
  | cons e es ih =>
    have space : p + shrsubSpace (e :: es) = p + e.size + shrsubSpace es := by
      simp [shrsubSpace, Nat.add_assoc]
    rw [List.cons_append, Shrsubs, ih, Shrsubs, space, and_assoc]

/-- What a turn does with an entry in use: it stands below by the space of the abandoned
ones, and only its space and the pointer of its node change. -/
theorem collectTurn_live {mem : ByteMemory} {p d b : Nat} {e : Shrsub} (here : e.At mem p)
    (owned : e.owner = some b) (before : b + 8 + d ≤ p) (bounded : p + e.size < 2 ^ 63) :
    (collectTurn mem p d).2 = d ∧ e.At (collectTurn mem p d).1 (p - d) ∧
      ∀ a, (a < p - d ∨ p + e.size ≤ a) → (a < b ∨ b + 8 ≤ a) →
        (collectTurn mem p d).1 a = mem a := by
  have space := e.size_eq
  have target : (mlk_shrsub.backpointer p : Int) + loadPtroff mem (mlk_shrsub.backpointer p) = b :=
    here.backpointer b owned
  have source : (mlk_shrblk.value b : Int) + loadPtroff mem (mlk_shrblk.value b) = p :=
    here.value b owned
  have first : mlk_shrsub.backpointer p = p := rfl
  have field : mlk_shrblk.value b = b := rfl
  have pointed : ¬ loadPtroff mem (mlk_shrsub.backpointer p) = 0 := by
    intro zero
    omega
  have small : e.size < 512 := shrsubSize_le e.length
  have n : (int4Value (MLK_SHRSUB_SIZE mem p)).toNat = e.size := by
    rw [Shrsub.MLK_SHRSUB_SIZE_eq here, int4Value_of_lt (by omega) (by omega)]
    exact Int.toNat_natCast _
  unfold collectTurn
  dsimp only
  rw [if_neg pointed, n, target, Int.toNat_natCast]
  by_cases still : d = 0
  · rw [if_neg (by omega), still]
    exact ⟨rfl, here, fun _ _ _ => rfl⟩
  rw [if_pos (by omega)]
  -- the node is told the new place first, then the entry its new distance
  generalize toldEq : storePtroff mem (mlk_shrblk.value b)
    (loadPtroff mem (mlk_shrblk.value b) - d) = told
  generalize readyEq : storePtroff told (mlk_shrsub.backpointer p)
    (loadPtroff mem (mlk_shrsub.backpointer p) + d) = ready
  have down : ((p : Int) - d).toNat = p - d := by omega
  rw [down]
  have newPointer : loadPtroff ready p = loadPtroff mem (mlk_shrsub.backpointer p) + d := by
    rw [← readyEq]
    exact loadPtroff_storePtroff told p (by omega) (by omega)
  have newValue : loadPtroff told b = loadPtroff mem (mlk_shrblk.value b) - d := by
    rw [← toldEq]
    exact loadPtroff_storePtroff mem b (by omega) (by omega)
  have onlyPointer : ∀ a, a < p ∨ p + 8 ≤ a → ready a = told a := by
    intro a outside
    rw [← readyEq]
    exact storePtroff_of_outside outside
  have onlyValue : ∀ a, a < b ∨ b + 8 ≤ a → told a = mem a := by
    intro a outside
    rw [← toldEq]
    exact storePtroff_of_outside outside
  have moved : ∀ i, i < e.size → ready.memmove (p - d) p e.size (p - d + i) = ready (p + i) := by
    intro i less
    rw [ByteMemory.memmove, if_pos (by omega), Nat.add_sub_cancel_left]
  have behind : ∀ i, 8 ≤ i → ready (p + i) = mem (p + i) := by
    intro i far
    exact (onlyPointer _ (by omega)).trans (onlyValue _ (by omega))
  dsimp only
  refine ⟨rfl, ?_, ?_⟩
  · constructor
    · exact (moved 8 (by omega)).trans ((behind 8 (Nat.le_refl 8)).trans here.length)
    · refine (ByteMemory.read_congr ?_).trans here.data
      intro i less
      rw [mlk_shrsub.data, mlk_shrsub.data, Nat.add_assoc, Nat.add_assoc, moved (9 + i) (by omega)]
      exact behind (9 + i) (by omega)
    · intro abandoned
      have both := owned.symm.trans abandoned
      cases both
    · intro node owned'
      obtain rfl : b = node := Option.some.inj (owned.symm.trans owned')
      have same : loadPtroff (ready.memmove (p - d) p e.size) (p - d) = loadPtroff ready p := by
        apply loadPtroff_congr
        intro i less
        exact moved i (by omega)
      rw [R2A, mlk_shrsub.backpointer, same, newPointer]
      omega
    · intro node owned'
      obtain rfl : b = node := Option.some.inj (owned.symm.trans owned')
      have same : loadPtroff (ready.memmove (p - d) p e.size) b = loadPtroff told b := by
        apply loadPtroff_congr
        intro i less
        rw [ByteMemory.memmove_of_outside (.inl (by omega)), onlyPointer _ (.inl (by omega))]
      rw [R2A, mlk_shrblk.value, same, newValue]
      omega
  · intro a apart word
    rw [ByteMemory.memmove_of_outside (by omega), onlyPointer _ (by omega), onlyValue a word]

/-! ## The whole area -/

@[simp] theorem shrsubSpace_nil : shrsubSpace [] = 0 := rfl

@[simp] theorem shrsubSpace_cons (e : Shrsub) (es : List Shrsub) :
    shrsubSpace (e :: es) = e.size + shrsubSpace es := by
  simp [shrsubSpace]

@[simp] theorem shrsubSpace_append (es fs : List Shrsub) :
    shrsubSpace (es ++ fs) = shrsubSpace es + shrsubSpace fs := by
  simp [shrsubSpace]

@[simp] theorem shrsubOwners_append (es fs : List Shrsub) :
    shrsubOwners (es ++ fs) = shrsubOwners es ++ shrsubOwners fs := by
  simp [shrsubOwners]

theorem shrsubOwners_cons_none {e : Shrsub} (es : List Shrsub) (abandoned : e.owner = none) :
    shrsubOwners (e :: es) = shrsubOwners es := by
  simp [shrsubOwners, abandoned]

theorem shrsubOwners_cons_some {e : Shrsub} {b : Nat} (es : List Shrsub) (owned : e.owner = some b) :
    shrsubOwners (e :: es) = b :: shrsubOwners es := by
  simp [shrsubOwners, owned]

theorem shrsubOwners_filter (es : List Shrsub) :
    shrsubOwners (es.filter Shrsub.live) = shrsubOwners es := by
  induction es with
  | nil => rfl
  | cons e es ih =>
    cases owner : e.owner with
    | none =>
      rw [List.filter_cons_of_neg (by simp [Shrsub.live, owner]), ih,
        shrsubOwners_cons_none es owner]
    | some b =>
      rw [List.filter_cons_of_pos (by simp [Shrsub.live, owner]), shrsubOwners_cons_some _ owner,
        ih, shrsubOwners_cons_some es owner]

/-- A turn keeps what was passed, keeps its entry in use, and leaves what follows. -/
theorem collectTurn_keeps {mem : ByteMemory} {base p d b : Nat} {e : Shrsub} {passed rest : List Shrsub}
    (kept : Shrsubs mem base passed) (here : e.At mem p) (left : Shrsubs mem (p + e.size) rest)
    (owned : e.owner = some b) (placed : base + shrsubSpace passed + d = p)
    (bounded : p + e.size < 2 ^ 63)
    (nodes : ∀ other ∈ shrsubOwners passed ++ b :: shrsubOwners rest, other + 8 ≤ base)
    (distinct : (shrsubOwners passed ++ b :: shrsubOwners rest).Pairwise WordsApart) :
    (collectTurn mem p d).2 = d ∧ Shrsubs (collectTurn mem p d).1 base (passed ++ [e]) ∧
      Shrsubs (collectTurn mem p d).1 (p + e.size) rest ∧
      ∀ a, (a < p - d ∨ p + e.size ≤ a) → (a < b ∨ b + 8 ≤ a) →
        (collectTurn mem p d).1 a = mem a := by
  have below : b + 8 ≤ base := nodes b (by simp)
  obtain ⟨delta, moved, frame⟩ := collectTurn_live (d := d) here owned (by omega) bounded
  have words : ∀ other ∈ shrsubOwners passed ++ shrsubOwners rest, ∀ i < 8,
      (collectTurn mem p d).1 (other + i) = mem (other + i) := by
    intro other member i less
    have pairs := List.pairwise_append.mp distinct
    rcases List.mem_append.mp member with earlier | later
    · have under := nodes other (List.mem_append_left _ earlier)
      have apart : WordsApart other b := pairs.2.2 other earlier b List.mem_cons_self
      rw [WordsApart] at apart
      exact frame _ (by omega) (by omega)
    · have under := nodes other (List.mem_append_right _ (List.mem_cons_of_mem _ later))
      have apart : WordsApart b other := (List.pairwise_cons.mp pairs.2.1).1 other later
      rw [WordsApart] at apart
      exact frame _ (by omega) (by omega)
  refine ⟨delta, shrsubs_append.mpr ⟨kept.congr ?_ ?_, ?_, trivial⟩, left.congr ?_ ?_, frame⟩
  · intro a start finish
    exact frame a (by omega) (by omega)
  · intro other member
    exact words other (List.mem_append_left _ member)
  · have target : base + shrsubSpace passed = p - d := by omega
    rw [target]
    exact moved
  · intro a start finish
    exact frame a (by omega) (by omega)
  · intro other member
    exact words other (List.mem_append_right _ member)

/-- The loop keeps the entries it has passed, without the abandoned ones, at the
beginning of the area; `d` is the space it has gained. -/
theorem collectLoop_spec {base f : Nat} (small : f < base + 2 ^ 31) (bounded : f < 2 ^ 63)
    (rest : List Shrsub) :
    ∀ (mem : ByteMemory) (p d : Nat) (passed : List Shrsub), Shrsubs mem base passed →
      Shrsubs mem p rest → base + shrsubSpace passed + d = p → p + shrsubSpace rest = f →
      (∀ b ∈ shrsubOwners (passed ++ rest), b + 8 ≤ base) →
      (shrsubOwners (passed ++ rest)).Pairwise WordsApart →
      ∃ (mem' : ByteMemory) (d' : Nat), collectLoop f mem p d = (mem', (d' : Int)) ∧
        Shrsubs mem' base (passed ++ rest.filter Shrsub.live) ∧
        base + shrsubSpace (passed ++ rest.filter Shrsub.live) + d' = f ∧
        ∀ a, a < base ∨ f ≤ a → (∀ b ∈ shrsubOwners rest, a < b ∨ b + 8 ≤ a) → mem' a = mem a := by
  induction rest with
  | nil =>
    intro mem p d passed kept left placed finish nodes distinct
    have stop : ¬ p < f := by
      rw [shrsubSpace_nil] at finish
      omega
    refine ⟨mem, d, ?_, by simpa using kept, ?_, fun _ _ _ => rfl⟩
    · rw [collectLoop, dif_neg stop]
    · rw [shrsubSpace_nil] at finish
      rw [List.filter_nil, List.append_nil]
      omega
  | cons e rest ih =>
    intro mem p d passed kept left placed finish nodes distinct
    obtain ⟨here, left⟩ := left
    have space := e.size_eq
    rw [shrsubSpace_cons] at finish
    have more : p < f := by omega
    have size : MLK_SHRSUB_SIZE mem p = e.size := Shrsub.MLK_SHRSUB_SIZE_eq here
    rw [collectLoop, dif_pos more, size]
    dsimp only
    cases owner : e.owner with
    | none =>
      have turn : collectTurn mem p d = (mem, ((d + e.size : Nat) : Int)) := by
        have limit : e.size < 512 := shrsubSize_le e.length
        rw [collectTurn]
        dsimp only
        rw [if_pos (here.abandoned owner), size, int4Value_of_lt (x := (e.size : Int)) (by omega) (by omega),
          int4Value_of_lt (by omega) (by omega), Int.natCast_add]
      rw [shrsubOwners_append, shrsubOwners_cons_none rest owner, ← shrsubOwners_append]
        at nodes distinct
      rw [turn, List.filter_cons_of_neg (by simp [Shrsub.live, owner]),
        shrsubOwners_cons_none rest owner]
      exact ih mem _ _ passed kept left (by omega) (by omega) nodes distinct
    | some b =>
      rw [shrsubOwners_append, shrsubOwners_cons_some rest owner] at nodes distinct
      obtain ⟨delta, kept', left', frame⟩ :=
        collectTurn_keeps kept here left owner placed (by omega) nodes distinct
      have together : passed ++ e :: rest.filter Shrsub.live = passed ++ [e] ++ rest.filter Shrsub.live := by
        simp
      rw [List.filter_cons_of_pos (by simp [Shrsub.live, owner]), together, delta,
        shrsubOwners_cons_some rest owner]
      have order : shrsubOwners (passed ++ [e] ++ rest) = shrsubOwners passed ++ b :: shrsubOwners rest := by
        rw [List.append_assoc, List.singleton_append, shrsubOwners_append,
          shrsubOwners_cons_some rest owner]
      obtain ⟨mem', d', result, entries, total, outside⟩ := ih _ _ d _ kept' left'
        (by simp only [shrsubSpace_append, shrsubSpace_cons, shrsubSpace_nil]; omega) (by omega)
        (by rw [order]; exact nodes) (by rw [order]; exact distinct)
      refine ⟨mem', d', result, entries, total, ?_⟩
      intro a area free
      have own := free b List.mem_cons_self
      rw [outside a area fun other member => free other (List.mem_cons_of_mem b member)]
      exact frame a (by omega) own

/-- Collection leaves the entries in use, in order and with their bytes, from the base
on, `subfree` at their end and the pointers between entries and nodes intact. Nothing but
the area, `subfree` and the pointers of the nodes is written. -/
theorem mlk_shrsub_garbage_collect_keeps_live {mem : ByteMemory} {ctl base : Nat}
    {es : List Shrsub} (space : SubscriptSpace mem ctl base es) :
    SubscriptSpace (mlk_shrsub_garbage_collect ctl mem) ctl base (es.filter Shrsub.live) ∧
      ∀ a, (a < base ∨ base + shrsubSpace es ≤ a) →
        (a < mlk_ctldata.subfree ctl ∨ mlk_ctldata.subfree ctl + 8 ≤ a) →
        (∀ b ∈ shrsubOwners es, a < mlk_shrblk.value b ∨ mlk_shrblk.value b + 8 ≤ a) →
        mlk_shrsub_garbage_collect ctl mem a = mem a := by
  have small := space.small
  have bounded := space.bounded
  have control := space.control
  have start : (R2A mem (mlk_ctldata.subbase ctl)).toNat = base := by
    rw [space.subbase, Int.toNat_natCast]
  have finish : (R2A mem (mlk_ctldata.subfree ctl)).toNat = base + shrsubSpace es := by
    rw [space.subfree]
    omega
  obtain ⟨mem', d, result, entries, total, frame⟩ := collectLoop_spec (f := base + shrsubSpace es)
    (by omega) bounded es mem base 0 [] trivial space.entries rfl rfl
    (fun b member => (space.nodes b member).2) space.distinct
  rw [List.nil_append] at entries total
  -- the control data lie before the nodes, and are not written by the loop
  have header : ∀ a, a < ctl + 64 → mem' a = mem a := by
    intro a low
    apply frame a (by omega)
    intro b member
    have after := (space.nodes b member).1
    omega
  have free : R2A mem (mlk_ctldata.subfree ctl) = base + shrsubSpace es := space.subfree
  have load : loadPtroff mem' (mlk_ctldata.subfree ctl) = loadPtroff mem (mlk_ctldata.subfree ctl) := by
    apply loadPtroff_congr
    intro i less
    apply header
    rw [mlk_ctldata.subfree]
    omega
  have written : mlk_shrsub_garbage_collect ctl mem = storePtroff mem' (mlk_ctldata.subfree ctl)
      (loadPtroff mem (mlk_ctldata.subfree ctl) - d) := by
    have loop : collectLoop (base + shrsubSpace es) mem base 0 = (mem', (d : Int)) := result
    rw [mlk_shrsub_garbage_collect]
    dsimp only
    rw [start, finish, loop, load]
  rw [R2A, mlk_ctldata.subfree] at free
  have apart : ∀ a, a < ctl + 48 ∨ ctl + 56 ≤ a → mlk_shrsub_garbage_collect ctl mem a = mem' a := by
    intro a outside
    rw [written, storePtroff_of_outside (by rw [mlk_ctldata.subfree]; omega)]
  constructor
  · constructor
    · rw [← space.subbase, R2A, R2A]
      congr 1
      apply loadPtroff_congr
      intro i less
      rw [mlk_ctldata.subbase, apart _ (by omega), header _ (by omega)]
    · rw [R2A, written, loadPtroff_storePtroff _ _ (by rw [mlk_ctldata.subfree]; omega)
        (by rw [mlk_ctldata.subfree]; omega), mlk_ctldata.subfree]
      omega
    · apply entries.congr
      · intro a _ _
        exact apart a (by omega)
      · intro b member i less
        rw [shrsubOwners_filter] at member
        have after := (space.nodes b member).1
        exact apart _ (by omega)
    · rw [shrsubOwners_filter]
      exact space.nodes
    · rw [shrsubOwners_filter]
      exact space.distinct
    · exact control
    · omega
    · omega
  · intro a area field words
    rw [mlk_ctldata.subfree] at field
    rw [apart a (by omega)]
    exact frame a (by omega) words

/-- A node at 64, and an abandoned entry at 128 before its entry at 144. -/
def smallLockSpace : ByteMemory := fun a =>
  if a = 40 then 88 else if a = 48 then 112 else if a = 64 then 80
  else if a = 144 then 0xB0 else if 144 < a ∧ a < 152 then 0xFF
  else if a = 152 then 1 else if a = 153 then 0x41 else 0

/-- An entry without an owner. -/
def abandonedShrsub : Shrsub := ⟨none, 0, List.replicate 7 0, by decide⟩

/-- An entry whose owner is at 64. -/
def ownedShrsub : Shrsub := ⟨some 64, 1, 0x41 :: List.replicate 6 0, by decide⟩

/-- Of two entries the abandoned one is collected. -/
theorem mlk_shrsub_garbage_collect_small :
    SubscriptSpace (mlk_shrsub_garbage_collect 0 smallLockSpace) 0 128 [ownedShrsub] := by
  have first : abandonedShrsub.At smallLockSpace 128 :=
    ⟨by decide, by decide, fun _ => by decide, nofun, nofun⟩
  have second : ownedShrsub.At smallLockSpace 144 := by
    refine ⟨by decide, by decide, nofun, ?_, ?_⟩
    · rintro b ⟨⟩
      decide
    · rintro b ⟨⟩
      decide
  have layout : SubscriptSpace smallLockSpace 0 128 [abandonedShrsub, ownedShrsub] := by
    refine ⟨by decide, by decide, ⟨first, second, trivial⟩, by decide, ?_, by decide, by decide, by decide⟩
    exact List.pairwise_singleton _ _
  exact (mlk_shrsub_garbage_collect_keeps_live layout).1

end Ydb
