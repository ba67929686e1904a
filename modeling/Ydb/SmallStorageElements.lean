import Mathlib.Data.List.Nodup
import Mathlib.Data.List.Pairwise
import Ydb.Lib.BuddyPartition
import Ydb.SmallStorage

/-!
# The elements of small storage

The elements of all extents partition their blocks. Every operation on elements
changes the partition in one place; an element that is neither free nor in use is
in hand.
-/

namespace Ydb

open Lib

/-- The smallest element has `2 ^ unit` bytes. -/
def unit : Nat := 5

theorem TwoTable_eq {i : Nat} (small : i ≤ MAXINDEX) : TwoTable i = 2 ^ (i + unit) := by
  have all : ∀ j < MAXINDEX + 1, TwoTable j = 2 ^ (j + unit) := by decide
  exact all i (Nat.lt_succ_of_le small)

theorem MAXTWO_eq : MAXTWO = 2 ^ (MAXINDEX + unit) := rfl

/-- The size of the index holds the request. -/
theorem GetSizeIndex_spec {t : Nat} (positive : 0 < t) (small : t ≤ MAXTWO) :
    GetSizeIndex t ≤ MAXINDEX ∧ t ≤ TwoTable (GetSizeIndex t) := by
  have all : ∀ j < 64, size2Index.getD j 0 ≤ MAXINDEX ∧
      MINTWO * (j + 1) ≤ TwoTable (size2Index.getD j 0) := by decide
  simp only [MAXTWO] at small
  have inTable : (t - 1) / MINTWO < 64 := by
    rw [MINTWO]
    omega
  obtain ⟨index, enough⟩ := all _ inTable
  refine ⟨index, Nat.le_trans ?_ enough⟩
  rw [MINTWO]
  omega

/-! ## Blocks of extents -/

/-- The blocks between two addresses. -/
def blocksFrom (start stop : Nat) : List Nat :=
  (List.range ((stop - start) / MAXTWO)).map fun k => start + k * MAXTWO

theorem mem_blocksFrom {start stop b : Nat} (startAligned : MAXTWO ∣ start) (stopAligned : MAXTWO ∣ stop) :
    b ∈ blocksFrom start stop ↔ MAXTWO ∣ b ∧ start ≤ b ∧ b < stop := by
  obtain ⟨q, rfl⟩ := startAligned
  obtain ⟨r, rfl⟩ := stopAligned
  have positive : 0 < MAXTWO := by decide
  rw [blocksFrom, List.mem_map, ← Nat.mul_sub, Nat.mul_div_cancel_left _ positive]
  constructor
  · rintro ⟨k, inRange, rfl⟩
    rw [List.mem_range] at inRange
    refine ⟨Nat.dvd_add (Nat.dvd_mul_right _ _) (Nat.dvd_mul_left _ _), Nat.le_add_right _ _, ?_⟩
    rw [Nat.mul_comm k, ← Nat.mul_add]
    exact Nat.mul_lt_mul_of_pos_left (by omega) positive
  · rintro ⟨⟨k, rfl⟩, from', upto⟩
    have lower := Nat.le_of_mul_le_mul_left from' positive
    have upper := Nat.lt_of_mul_lt_mul_left upto
    refine ⟨k - q, List.mem_range.mpr (by omega), ?_⟩
    rw [Nat.mul_comm (k - q), ← Nat.mul_add]
    congr 1
    omega

theorem blocksFrom_nodup (start stop : Nat) : (blocksFrom start stop).Nodup := by
  apply List.Nodup.map _ List.nodup_range
  intro k l same
  have positive : 0 < MAXTWO := by decide
  exact Nat.eq_of_mul_eq_mul_right positive (Nat.add_left_cancel same)

theorem inBlocks_blocksFrom {start stop x : Nat} (startAligned : MAXTWO ∣ start)
    (stopAligned : MAXTWO ∣ stop) :
    InBlocks MAXTWO (blocksFrom start stop) x ↔ start ≤ x ∧ x < stop := by
  have positive : 0 < MAXTWO := by decide
  constructor
  · rintro ⟨b, member, from', upto⟩
    obtain ⟨aligned, above, below⟩ := (mem_blocksFrom startAligned stopAligned).mp member
    refine ⟨Nat.le_trans above from', Nat.lt_of_lt_of_le upto ?_⟩
    -- Blocks that start before the end are in front of it.
    obtain ⟨k, rfl⟩ := aligned
    obtain ⟨r, rfl⟩ := stopAligned
    rw [← Nat.mul_succ]
    exact Nat.mul_le_mul_left _ (Nat.lt_of_mul_lt_mul_left below)
  · rintro ⟨from', upto⟩
    have split := Nat.div_add_mod x MAXTWO
    have rest := Nat.mod_lt x positive
    refine ⟨MAXTWO * (x / MAXTWO), ?_, by omega, by omega⟩
    apply (mem_blocksFrom startAligned stopAligned).mpr
    refine ⟨Nat.dvd_mul_right _ _, ?_, by omega⟩
    obtain ⟨q, rfl⟩ := startAligned
    apply Nat.mul_le_mul_left
    exact (Nat.le_div_iff_mul_le positive).mpr (by rw [Nat.mul_comm]; exact from')

/-! ## The invariant -/

/-- The blocks of the extents. -/
def Storage.region (s : Storage) (x : Nat) : Prop :=
  ∃ h ∈ s.storExtHdrQ, (s.ext h).elemStart ≤ x ∧ x < h

/-- Areas that do not overlap. -/
def Apart (area area' : Nat × Nat) : Prop :=
  area.1 + area.2 ≤ area'.1 ∨ area'.1 + area'.2 ≤ area.1

/-- Headers and queues are as the pieces are. -/
structure Storage.Elements (s : Storage) (pieces : Pieces) (hand : List Nat) : Prop where
  queues : ∀ i a, a ∈ s.freeStorElemQs i ↔ pieces a = some ⟨i, true⟩
  queue_nodup : ∀ i, (s.freeStorElemQs i).Nodup
  index : ∀ {a e}, pieces a = some e → (s.elem a).queueIndex = e.index
  free : ∀ {a i}, pieces a = some ⟨i, true⟩ → (s.elem a).state = Free
  inUse : ∀ {a i}, pieces a = some ⟨i, false⟩ → a ∉ hand → (s.elem a).state = Allocated
  alone : ∀ {a i}, pieces a = some ⟨i, true⟩ → i < MAXINDEX →
    pieces (buddy a (i + unit)) ≠ some ⟨i, true⟩

/-- An extent of aligned blocks, each of which tells where the header is. -/
structure Storage.ExtentOk (s : Storage) (pieces : Pieces) (h : Nat) : Prop where
  start_aligned : MAXTWO ∣ (s.ext h).elemStart
  aligned : MAXTWO ∣ h
  below : (s.ext h).elemStart < h
  count : h ≤ (s.ext h).elemStart + (ELEMS_PER_EXTENT + 1) * MAXTWO
  area : ((s.ext h).extentStart, EXTENT_SIZE) ∈ s.areas
  start_inside : (s.ext h).extentStart ≤ (s.ext h).elemStart
  end_inside : h + SIZEOF_storExtHdr ≤ (s.ext h).extentStart + EXTENT_SIZE
  offset : ∀ b ∈ blocksFrom (s.ext h).elemStart h, b + (s.elem b).extHdrOffset = h

/-- The number of blocks that are not free as a whole. -/
def blocksInUse (pieces : Pieces) (start stop : Nat) : Nat :=
  (blocksFrom start stop).countP fun b => pieces b != some ⟨MAXINDEX, true⟩

/-- The extents hold the blocks, each with its counts. -/
structure Storage.Extents (s : Storage) (pieces : Pieces) : Prop where
  ok : ∀ h ∈ s.storExtHdrQ, s.ExtentOk pieces h
  different : (s.storExtHdrQ.map fun h => (s.ext h).extentStart).Nodup
  count : s.curExtents = s.storExtHdrQ.length
  allocd : ∀ h ∈ s.storExtHdrQ,
    (s.ext h).elemsAllocd = (blocksInUse pieces (s.ext h).elemStart h : Nat)
  areas : s.areas.Pairwise Apart

/-- Storage in use is an element, or an area of its own. -/
def Storage.InUse (s : Storage) (pieces : Pieces) (hand : List Nat) (l : LiveStorage) : Prop :=
  (∃ i, pieces l.uStor = some ⟨i, false⟩ ∧ l.uStor ∉ hand ∧ l.realLen = TwoTable i) ∨
  ((s.elem l.uStor).queueIndex = REAL_MALLOC ∧ (l.uStor, l.realLen) ∈ s.areas ∧
    ∀ h ∈ s.storExtHdrQ, (s.ext h).extentStart ≠ l.uStor)

/-- The storage in use is what callers have. -/
structure Storage.Lives (s : Storage) (pieces : Pieces) (hand : List Nat) : Prop where
  inUse : ∀ l ∈ s.live, s.InUse pieces hand l
  length : ∀ l ∈ s.live, (s.elem l.uStor).realLen = l.realLen
  enough : ∀ l ∈ s.live, l.size + hdrSize ≤ l.realLen
  different : (s.live.map LiveStorage.uStor).Nodup
  total : s.totalAlloc = (s.live.map LiveStorage.realLen).sum
  all : ∀ {a i}, pieces a = some ⟨i, false⟩ → a ∉ hand → ∃ l ∈ s.live, l.uStor = a
  hand_inUse : ∀ a ∈ hand, ∃ i, pieces a = some ⟨i, false⟩

/-- The invariant, with elements in hand. -/
structure Storage.Inv (s : Storage) (pieces : Pieces) (hand : List Nat) : Prop where
  partition : Partition unit MAXINDEX s.region pieces
  elements : s.Elements pieces hand
  extents : s.Extents pieces
  lives : s.Lives pieces hand

/-! ## Places of elements -/

instance : Std.Symm Apart := ⟨fun _ _ => Or.symm⟩

theorem areas_apart {areas : List (Nat × Nat)} (apart : areas.Pairwise Apart) {area area' : Nat × Nat}
    (member : area ∈ areas) (member' : area' ∈ areas) (different : area ≠ area') : Apart area area' :=
  apart.forall member member' different

section Places

variable {s : Storage} {pieces : Pieces} {hand : List Nat}

/-- Extents do not share addresses. -/
theorem Storage.Extents.unique (extents : s.Extents pieces) {h h' x : Nat} (member : h ∈ s.storExtHdrQ)
    (member' : h' ∈ s.storExtHdrQ) (inside : (s.ext h).elemStart ≤ x ∧ x < h)
    (inside' : (s.ext h').elemStart ≤ x ∧ x < h') : h = h' := by
  by_contra different
  have ok := extents.ok h member
  have ok' := extents.ok h' member'
  have starts : (s.ext h).extentStart ≠ (s.ext h').extentStart := fun same =>
    different (List.inj_on_of_nodup_map extents.different member member' same)
  have apart := areas_apart extents.areas ok.area ok'.area fun same =>
    starts (congrArg Prod.fst same)
  have start := ok.start_inside
  have stop := ok.end_inside
  have start' := ok'.start_inside
  have stop' := ok'.end_inside
  simp only [Apart] at apart
  omega

/-- A block that is one element tells where the header of its extent is. -/
theorem Storage.Inv.extent_of_block (inv : s.Inv pieces hand) {a : Nat} {free : Bool}
    (here : pieces a = some ⟨MAXINDEX, free⟩) :
    ∃ h ∈ s.storExtHdrQ, a ∈ blocksFrom (s.ext h).elemStart h ∧ a + (s.elem a).extHdrOffset = h := by
  obtain ⟨h, member, inside⟩ := inv.partition.inside (covers_self here)
  have ok := inv.extents.ok h member
  have aligned : MAXTWO ∣ a := by
    rw [MAXTWO_eq]
    exact inv.partition.piece_aligned here
  have isBlock : a ∈ blocksFrom (s.ext h).elemStart h :=
    (mem_blocksFrom ok.start_aligned ok.aligned).mpr ⟨aligned, inside⟩
  exact ⟨h, member, isBlock, ok.offset a isBlock⟩

/-- Storage that has an area of its own is not in an extent. -/
theorem Storage.Inv.real_outside (inv : s.Inv pieces hand) {l : LiveStorage} (isLive : l ∈ s.live)
    (area : (l.uStor, l.realLen) ∈ s.areas)
    (other : ∀ h ∈ s.storExtHdrQ, (s.ext h).extentStart ≠ l.uStor) : ¬ s.region l.uStor := by
  rintro ⟨h, member, inside⟩
  have ok := inv.extents.ok h member
  have apart := areas_apart inv.extents.areas ok.area area fun same =>
    other h member (congrArg Prod.fst same)
  have start := ok.start_inside
  have stop := ok.end_inside
  have length := inv.lives.enough l isLive
  simp only [Apart, hdrSize] at apart length
  omega

theorem Storage.Inv.region_of_piece (inv : s.Inv pieces hand) {a : Nat} {e : Piece}
    (here : pieces a = some e) : s.region a :=
  inv.partition.inside (covers_self here)

/-- Only storage that is in use is where an element in use is. -/
theorem Storage.Inv.live_ne (inv : s.Inv pieces hand) {l : LiveStorage} (isLive : l ∈ s.live) {a : Nat}
    (inRegion : s.region a) (other : ∀ i, pieces a = some ⟨i, false⟩ → a ∈ hand) : l.uStor ≠ a := by
  rintro rfl
  rcases inv.lives.inUse l isLive with ⟨i, here, absent, _⟩ | ⟨_, area, notExtent⟩
  · exact absent (other i here)
  · exact inv.real_outside isLive area notExtent inRegion

end Places

/-! ## Changes of elements -/

/-- The extents are what they were. -/
structure SameExtents (s s' : Storage) : Prop where
  headers : s'.storExtHdrQ = s.storExtHdrQ
  extentStart : ∀ h, (s'.ext h).extentStart = (s.ext h).extentStart
  elemStart : ∀ h, (s'.ext h).elemStart = (s.ext h).elemStart
  areas : s'.areas = s.areas
  curExtents : s'.curExtents = s.curExtents
  offset : ∀ a, (s'.elem a).extHdrOffset = (s.elem a).extHdrOffset

theorem SameExtents.refl (s : Storage) : SameExtents s s :=
  ⟨rfl, fun _ => rfl, fun _ => rfl, rfl, rfl, fun _ => rfl⟩

theorem SameExtents.trans {s t r : Storage} (first : SameExtents s t) (second : SameExtents t r) :
    SameExtents s r := by
  constructor
  · exact second.headers.trans first.headers
  · exact fun h => (second.extentStart h).trans (first.extentStart h)
  · exact fun h => (second.elemStart h).trans (first.elemStart h)
  · exact second.areas.trans first.areas
  · exact second.curExtents.trans first.curExtents
  · exact fun a => (second.offset a).trans (first.offset a)

theorem SameExtents.region {s s' : Storage} (same : SameExtents s s') : s'.region = s.region := by
  funext x
  simp only [Storage.region, same.headers, same.elemStart]

theorem blocksInUse_congr {pieces pieces' : Pieces} {start stop : Nat}
    (whole : ∀ b ∈ blocksFrom start stop,
      pieces' b = some ⟨MAXINDEX, true⟩ ↔ pieces b = some ⟨MAXINDEX, true⟩) :
    blocksInUse pieces' start stop = blocksInUse pieces start stop := by
  apply List.countP_congr
  intro b member
  rw [bne_iff_ne, bne_iff_ne, not_iff_not]
  exact whole b member

/-- One block more is in use. -/
theorem blocksInUse_succ {pieces pieces' : Pieces} {start stop b : Nat}
    (member : b ∈ blocksFrom start stop) (before : pieces b = some ⟨MAXINDEX, true⟩)
    (after : pieces' b ≠ some ⟨MAXINDEX, true⟩)
    (others : ∀ c ∈ blocksFrom start stop, c ≠ b → pieces' c = pieces c) :
    blocksInUse pieces' start stop = blocksInUse pieces start stop + 1 := by
  have nodup := blocksFrom_nodup start stop
  have perm := List.perm_cons_erase member
  rw [blocksInUse, blocksInUse, perm.countP_eq, perm.countP_eq, List.countP_cons_of_pos,
    List.countP_cons_of_neg]
  · congr 1
    apply List.countP_congr
    intro c inRest
    obtain ⟨different, isBlock⟩ := nodup.mem_erase_iff.mp inRest
    rw [others c isBlock different]
  · rw [before]
    decide
  · exact bne_iff_ne.mpr after

/-- The extents, when what they say is the same. -/
theorem Storage.Extents.congr {s s' : Storage} {pieces pieces' : Pieces} (extents : s.Extents pieces)
    (same : SameExtents s s')
    (allocd : ∀ h ∈ s.storExtHdrQ,
      (s'.ext h).elemsAllocd = (blocksInUse pieces' (s.ext h).elemStart h : Nat)) :
    s'.Extents pieces' := by
  refine ⟨?_, ?_, ?_, ?_, ?_⟩
  · intro h member
    rw [same.headers] at member
    have ok := extents.ok h member
    refine ⟨?_, ok.aligned, ?_, ?_, ?_, ?_, ?_, ?_⟩
    · rw [same.elemStart]
      exact ok.start_aligned
    · rw [same.elemStart]
      exact ok.below
    · rw [same.elemStart]
      exact ok.count
    · rw [same.extentStart, same.areas]
      exact ok.area
    · rw [same.extentStart, same.elemStart]
      exact ok.start_inside
    · rw [same.extentStart]
      exact ok.end_inside
    · intro b isBlock
      rw [same.elemStart] at isBlock
      rw [same.offset]
      exact ok.offset b isBlock
  · simp only [same.headers, same.extentStart]
    exact extents.different
  · rw [same.curExtents, same.headers]
    exact extents.count
  · intro h member
    rw [same.headers] at member
    rw [same.elemStart]
    exact allocd h member
  · rw [same.areas]
    exact extents.areas

/-- The use of blocks is the same if the same blocks are free as a whole. -/
theorem Storage.Extents.congr_whole {s s' : Storage} {pieces pieces' : Pieces}
    (extents : s.Extents pieces) (same : SameExtents s s')
    (allocd : ∀ h, (s'.ext h).elemsAllocd = (s.ext h).elemsAllocd)
    (whole : ∀ b, pieces' b = some ⟨MAXINDEX, true⟩ ↔ pieces b = some ⟨MAXINDEX, true⟩) :
    s'.Extents pieces' := by
  apply extents.congr same
  intro h member
  rw [allocd, extents.allocd h member, blocksInUse_congr fun b _ => whole b]

/-- The storage in use, when it is the same. -/
theorem Storage.Lives.congr {s s' : Storage} {pieces pieces' : Pieces} {hand hand' : List Nat}
    (lives : s.Lives pieces hand) (same : SameExtents s s') (live : s'.live = s.live)
    (total : s'.totalAlloc = s.totalAlloc)
    (queueIndex : ∀ l ∈ s.live, (s.elem l.uStor).queueIndex = REAL_MALLOC →
      (s'.elem l.uStor).queueIndex = REAL_MALLOC)
    (realLen : ∀ l ∈ s.live, (s'.elem l.uStor).realLen = (s.elem l.uStor).realLen)
    (kept : ∀ l ∈ s.live, ∀ i, pieces l.uStor = some ⟨i, false⟩ → l.uStor ∉ hand →
      pieces' l.uStor = some ⟨i, false⟩ ∧ l.uStor ∉ hand')
    (all : ∀ {a i}, pieces' a = some ⟨i, false⟩ → a ∉ hand' →
      ∃ j, pieces a = some ⟨j, false⟩ ∧ a ∉ hand)
    (hand_inUse : ∀ a ∈ hand', ∃ i, pieces' a = some ⟨i, false⟩) : s'.Lives pieces' hand' := by
  refine ⟨?_, ?_, ?_, ?_, ?_, ?_, hand_inUse⟩
  · intro l member
    rw [live] at member
    rcases lives.inUse l member with ⟨i, here, absent, length⟩ | ⟨real, area, other⟩
    · obtain ⟨here', absent'⟩ := kept l member i here absent
      exact .inl ⟨i, here', absent', length⟩
    · refine .inr ⟨queueIndex l member real, ?_, ?_⟩
      · rw [same.areas]
        exact area
      · intro h inQueue
        rw [same.headers] at inQueue
        rw [same.extentStart]
        exact other h inQueue
  · intro l member
    rw [live] at member
    rw [realLen l member]
    exact lives.length l member
  · rw [live]
    exact lives.enough
  · rw [live]
    exact lives.different
  · rw [live, total]
    exact lives.total
  · intro a i here absent
    obtain ⟨j, old, oldAbsent⟩ := all here absent
    rw [live]
    exact lives.all old oldAbsent

/-- Changes that are not of elements or extents. -/
theorem Storage.Inv.elsewhere {s s' : Storage} {pieces : Pieces} {hand : List Nat}
    (inv : s.Inv pieces hand) (elem : ∀ {a e}, pieces a = some e → s'.elem a = s.elem a)
    (ext : ∀ h ∈ s.storExtHdrQ, s'.ext h = s.ext h) (queues : s'.freeStorElemQs = s.freeStorElemQs)
    (headers : s'.storExtHdrQ = s.storExtHdrQ) (curExtents : s'.curExtents = s.curExtents)
    (areas : s'.areas.Pairwise Apart)
    (kept : ∀ h ∈ s.storExtHdrQ, ((s.ext h).extentStart, EXTENT_SIZE) ∈ s'.areas)
    (lives : s'.Lives pieces hand) : s'.Inv pieces hand := by
  have region : s'.region = s.region := by
    funext x
    apply propext
    rw [Storage.region, headers]
    constructor
    · rintro ⟨h, member, inside⟩
      rw [ext h member] at inside
      exact ⟨h, member, inside⟩
    · rintro ⟨h, member, inside⟩
      rw [← ext h member] at inside
      exact ⟨h, member, inside⟩
  refine ⟨?_, ?_, ?_, lives⟩
  · rw [region]
    exact inv.partition
  · refine ⟨?_, ?_, ?_, ?_, ?_, inv.elements.alone⟩
    · rw [queues]
      exact inv.elements.queues
    · rw [queues]
      exact inv.elements.queue_nodup
    · intro a e found
      rw [elem found]
      exact inv.elements.index found
    · intro a i found
      rw [elem found]
      exact inv.elements.free found
    · intro a i found absent
      rw [elem found]
      exact inv.elements.inUse found absent
  · refine ⟨?_, ?_, ?_, ?_, areas⟩
    · intro h member
      rw [headers] at member
      have ok := inv.extents.ok h member
      have same := ext h member
      refine ⟨?_, ok.aligned, ?_, ?_, ?_, ?_, ?_, ?_⟩
      · rw [same]
        exact ok.start_aligned
      · rw [same]
        exact ok.below
      · rw [same]
        exact ok.count
      · rw [same]
        exact kept h member
      · rw [same]
        exact ok.start_inside
      · rw [same]
        exact ok.end_inside
      · rw [same]
        intro b isBlock
        obtain ⟨aligned, inside⟩ := (mem_blocksFrom ok.start_aligned ok.aligned).mp isBlock
        obtain ⟨e, found⟩ := inv.partition.piece_at_block ⟨h, member, inside⟩ aligned
        rw [elem found]
        exact ok.offset b isBlock
    · rw [headers, List.map_congr_left fun h member => by rw [ext h member]]
      exact inv.extents.different
    · rw [curExtents, headers]
      exact inv.extents.count
    · intro h member
      rw [headers] at member
      rw [ext h member]
      exact inv.extents.allocd h member

end Ydb
