import Ydb.SmallStorageQueues

/-!
# Obtaining small storage

An element is taken from a queue, split off a larger one, or is the first block of
a new extent. Storage that is too large for that has an area of its own.
-/

namespace Ydb

open Lib

variable {s : Storage} {pieces : Pieces}

/-! ## New extents -/

/-- The blocks behind the first one of an extent. -/
def placed : Nat → Nat → List Nat
  | 0, _ => []
  | rest + 1, u => (u + MAXTWO) :: placed rest (u + MAXTWO)

theorem mem_placed {n u b : Nat} (aligned : MAXTWO ∣ u) :
    b ∈ placed n u ↔ MAXTWO ∣ b ∧ u < b ∧ b < u + (n + 1) * MAXTWO := by
  induction n generalizing u with
  | zero =>
    simp only [placed, List.not_mem_nil, false_iff]
    rintro ⟨bAligned, after, before⟩
    have apart := Nat.le_of_dvd (Nat.sub_pos_of_lt after) (Nat.dvd_sub bAligned aligned)
    omega
  | succ n ih =>
    have next : MAXTWO ∣ u + MAXTWO := Nat.dvd_add aligned (Nat.dvd_refl _)
    have positive : 0 < MAXTWO := by decide
    rw [placed, List.mem_cons, ih next]
    have size : u + (n + 1 + 1) * MAXTWO = u + MAXTWO + (n + 1) * MAXTWO := by ring
    rw [size]
    constructor
    · rintro (rfl | ⟨bAligned, after, before⟩)
      · refine ⟨next, by omega, ?_⟩
        exact Nat.lt_add_of_pos_right (Nat.mul_pos (Nat.succ_pos n) positive)
      · exact ⟨bAligned, by omega, before⟩
    · rintro ⟨bAligned, after, before⟩
      have apart := Nat.le_of_dvd (Nat.sub_pos_of_lt after) (Nat.dvd_sub bAligned aligned)
      by_cases here : b = u + MAXTWO
      · exact .inl here
      · exact .inr ⟨bAligned, by omega, before⟩

theorem placed_nodup (n u : Nat) : (placed n u).Nodup := by
  have above : ∀ n u b, b ∈ placed n u → u < b := by
    intro n
    induction n with
    | zero => exact fun _ _ member => absurd member List.not_mem_nil
    | succ n ih =>
      intro u b member
      have positive : 0 < MAXTWO := by decide
      rcases List.mem_cons.mp member with rfl | later
      · omega
      · have := ih _ b later
        omega
  induction n generalizing u with
  | zero => exact .nil
  | succ n ih =>
    refine List.nodup_cons.mpr ⟨?_, ih _⟩
    intro member
    exact Nat.lt_irrefl _ (above _ _ _ member)

/-- The blocks behind the first are queued. -/
theorem placeBlocks_spec (h n u : Nat) (s : Storage) :
    (∀ b ∈ placed n u, (placeBlocks h n u s).elem b = { s.elem b with
      state := Free
      queueIndex := MAXINDEX
      extHdrOffset := h - b }) ∧
    (∀ b, b ∉ placed n u → (placeBlocks h n u s).elem b = s.elem b) ∧
    placeBlocks h n u s = { s with
      elem := (placeBlocks h n u s).elem
      freeStorElemQs := Function.update s.freeStorElemQs MAXINDEX
        ((placed n u).reverse ++ s.freeStorElemQs MAXINDEX) } := by
  induction n generalizing u s with
  | zero =>
    refine ⟨fun _ member => absurd member List.not_mem_nil, fun _ _ => rfl, ?_⟩
    simp only [placed, List.reverse_nil, List.nil_append, Function.update_eq_self]
    rfl
  | succ n ih =>
    obtain ⟨inside, outside, rest⟩ := ih (u + MAXTWO)
      ((s.setElem (u + MAXTWO) fun e => { e with
        state := Free
        queueIndex := MAXINDEX
        extHdrOffset := h - (u + MAXTWO) }).ENQUEUE_STOR_ELEM MAXINDEX (u + MAXTWO))
    have nodup := placed_nodup (n + 1) u
    obtain ⟨new, _⟩ := List.nodup_cons.mp nodup
    refine ⟨?_, ?_, ?_⟩
    · intro b member
      rw [placeBlocks]
      rcases List.mem_cons.mp member with rfl | later
      · rw [outside _ new, Storage.ENQUEUE_elem, Storage.setElem_self]
      · have different : b ≠ u + MAXTWO := by
          rintro rfl
          exact new later
        rw [inside b later, Storage.ENQUEUE_elem, Storage.setElem_of_ne _ _ _ different]
    · intro b absent
      rw [placed, List.mem_cons, not_or] at absent
      rw [placeBlocks, outside b absent.2, Storage.ENQUEUE_elem,
        Storage.setElem_of_ne _ _ _ absent.1]
    · rw [placeBlocks, rest]
      simp only [Storage.ENQUEUE_STOR_ELEM, Storage.setElem, Function.update_self,
        Function.update_idem, placed, List.reverse_cons, List.append_assoc, List.singleton_append]

/-- What a new extent changes. -/
structure NewExtent (s : Storage) (alloc u h : Nat) (s' : Storage) : Prop where
  aligned : MAXTWO ∣ u
  header_aligned : MAXTWO ∣ h
  below : u < h
  count : h ≤ u + (ELEMS_PER_EXTENT + 1) * MAXTWO
  start_inside : alloc ≤ u
  end_inside : h + SIZEOF_storExtHdr ≤ alloc + EXTENT_SIZE
  inside : ∀ b ∈ blocksFrom u h, (s'.elem b).state = Free ∧ (s'.elem b).queueIndex = MAXINDEX ∧
    (s'.elem b).extHdrOffset = h - b
  outside : ∀ b, b ∉ blocksFrom u h → s'.elem b = s.elem b
  queue : ∃ new, s'.freeStorElemQs = Function.update s.freeStorElemQs MAXINDEX
      (new ++ s.freeStorElemQs MAXINDEX) ∧ new.Nodup ∧ ∀ b, b ∈ new ↔ b ∈ blocksFrom u h ∧ b ≠ u
  ext : s'.ext = Function.update s.ext h ⟨alloc, u, 1⟩
  headers : s'.storExtHdrQ = h :: s.storExtHdrQ
  areas : s'.areas = (alloc, EXTENT_SIZE) :: s.areas
  curExtents : s'.curExtents = s.curExtents + 1
  live : s'.live = s.live
  total : s'.totalAlloc = s.totalAlloc

/-- An extent is cut into blocks. -/
theorem carveExtent_changes {alloc u blocks : Nat} {s s₁ : Storage} (some' : 0 < blocks)
    (few : blocks ≤ ELEMS_PER_EXTENT + 1) (aligned : MAXTWO ∣ u) (start : alloc ≤ u)
    (stop : u + blocks * MAXTWO + SIZEOF_storExtHdr ≤ alloc + EXTENT_SIZE)
    (before : s₁ = { s with
      curExtents := s.curExtents + 1
      areas := (alloc, EXTENT_SIZE) :: s.areas
      totalRmalloc := s.totalRmalloc + EXTENT_SIZE }) :
    NewExtent s alloc u (u + blocks * MAXTWO) (carveExtent alloc u (u + blocks * MAXTWO) blocks s₁) := by
  have sizes : u + blocks * MAXTWO = u + (blocks - 1 + 1) * MAXTWO := by
    rw [Nat.sub_add_cancel some']
  have headerAligned : MAXTWO ∣ u + blocks * MAXTWO := Nat.dvd_add aligned (Nat.dvd_mul_left _ _)
  have positive : 0 < blocks * MAXTWO := Nat.mul_pos some' (by decide)
  obtain ⟨inPlaced, outPlaced, rest⟩ := placeBlocks_spec (u + blocks * MAXTWO) (blocks - 1) u s₁
  have members : ∀ b, b ∈ blocksFrom u (u + blocks * MAXTWO) ↔ b = u ∨ b ∈ placed (blocks - 1) u := by
    intro b
    rw [mem_blocksFrom aligned headerAligned, mem_placed aligned, ← sizes]
    constructor
    · rintro ⟨bAligned, after, before⟩
      rcases Nat.eq_or_lt_of_le after with same | later
      · exact .inl same.symm
      · exact .inr ⟨bAligned, later, before⟩
    · rintro (rfl | ⟨bAligned, after, before⟩)
      · exact ⟨aligned, Nat.le_refl _, by omega⟩
      · exact ⟨bAligned, Nat.le_of_lt after, before⟩
  have first : u ∉ placed (blocks - 1) u := by
    rw [mem_placed aligned]
    omega
  rw [carveExtent]
  generalize placeBlocks (u + blocks * MAXTWO) (blocks - 1) u s₁ = t at *
  rw [rest, before]
  have elem : ∀ b, b ≠ u → (Storage.setElem t u fun e => { e with
      extHdrOffset := u + blocks * MAXTWO - u
      state := Free
      queueIndex := MAXINDEX }).elem b = t.elem b := fun b other => Storage.setElem_of_ne _ _ _ other
  refine ⟨aligned, headerAligned, by omega, ?_, start, stop, ?_, ?_, ?_, rfl, rfl, rfl, rfl, rfl, rfl⟩
  · exact Nat.add_le_add_left (Nat.mul_le_mul_right _ few) u
  · intro b member
    rcases (members b).mp member with rfl | later
    · have written := Storage.setElem_self t b fun e => { e with
        extHdrOffset := b + blocks * MAXTWO - b
        state := Free
        queueIndex := MAXINDEX }
      exact ⟨congrArg StorElem.state written, congrArg StorElem.queueIndex written,
        congrArg StorElem.extHdrOffset written⟩
    · have different : b ≠ u := by
        rintro rfl
        exact first later
      have written := (elem b different).trans (inPlaced b later)
      exact ⟨congrArg StorElem.state written, congrArg StorElem.queueIndex written,
        congrArg StorElem.extHdrOffset written⟩
  · intro b absent
    rw [members, not_or] at absent
    have unchanged := (elem b absent.1).trans (outPlaced b absent.2)
    rw [before] at unchanged
    exact unchanged
  · refine ⟨(placed (blocks - 1) u).reverse, rfl, List.nodup_reverse.mpr (placed_nodup _ _), ?_⟩
    intro b
    rw [List.mem_reverse, members]
    constructor
    · intro member
      refine ⟨.inr member, ?_⟩
      rintro rfl
      exact first member
    · rintro ⟨rfl | member, different⟩
      · exact absurd rfl different
      · exact member

/-- What a new extent changes. -/
theorem newExtent_changes (alloc : Nat) (s : Storage) :
    ∃ h, NewExtent s alloc (newExtent alloc s).2 h (newExtent alloc s).1 := by
  have aligned : MAXTWO ∣ (alloc + (MAXTWO - 1)) / MAXTWO * MAXTWO := Nat.dvd_mul_left _ _
  have start : alloc ≤ (alloc + (MAXTWO - 1)) / MAXTWO * MAXTWO ∧
      (alloc + (MAXTWO - 1)) / MAXTWO * MAXTWO < alloc + MAXTWO := by
    simp only [MAXTWO]
    omega
  rw [newExtent]
  dsimp only
  generalize (alloc + (MAXTWO - 1)) / MAXTWO * MAXTWO = u at *
  simp only [MAXTWO] at start
  split
  next exact' =>
    refine ⟨_, carveExtent_changes (by decide) (Nat.le_refl _) aligned start.1 ?_ rfl⟩
    simp only [MAXTWO, ELEMS_PER_EXTENT, EXTENT_SIZE, SIZEOF_storExtHdr]
    omega
  · refine ⟨_, carveExtent_changes (by decide) (Nat.le_succ _) aligned start.1 ?_ rfl⟩
    simp only [MAXTWO, ELEMS_PER_EXTENT, EXTENT_SIZE, SIZEOF_storExtHdr]
    omega

/-- The pieces with the blocks of a new extent, the first of which is in hand. -/
def withExtent (pieces : Pieces) (u h : Nat) : Pieces := fun a =>
  if a ∈ blocksFrom u h then some ⟨MAXINDEX, a != u⟩ else pieces a

section NewExtents

variable {alloc u h : Nat} {s' : Storage}

/-- The area of a new extent is not in use. -/
theorem NewExtent.not_region (new : NewExtent s alloc u h s') (inv : s.Inv pieces [])
    (fresh : ∀ area ∈ s.areas, Apart (alloc, EXTENT_SIZE) area) {x : Nat} (from' : u ≤ x)
    (upto : x ≤ h) : ¬ s.region x := by
  rintro ⟨h', member, inside⟩
  have ok := inv.extents.ok h' member
  have apart := fresh _ ok.area
  have start := ok.start_inside
  have stop := ok.end_inside
  have newStart := new.start_inside
  have newStop := new.end_inside
  simp only [Apart, SIZEOF_storExtHdr] at apart stop newStop
  omega

/-- The new extent is none of the old ones. -/
theorem NewExtent.header_new (new : NewExtent s alloc u h s') (inv : s.Inv pieces [])
    (fresh : ∀ area ∈ s.areas, Apart (alloc, EXTENT_SIZE) area) {h' : Nat}
    (member : h' ∈ s.storExtHdrQ) : h' ≠ h ∧ (s.ext h').extentStart ≠ alloc := by
  have ok := inv.extents.ok h' member
  have apart := fresh _ ok.area
  have start := ok.start_inside
  have stop := ok.end_inside
  have below := ok.below
  have newStart := new.start_inside
  have newStop := new.end_inside
  have newBelow := new.below
  simp only [Apart, SIZEOF_storExtHdr] at apart stop newStop
  omega

/-- No storage in use is in the new extent. -/
theorem NewExtent.not_live (new : NewExtent s alloc u h s') (inv : s.Inv pieces [])
    (fresh : ∀ area ∈ s.areas, Apart (alloc, EXTENT_SIZE) area) {l : LiveStorage}
    (member : l ∈ s.live) : l.uStor ∉ blocksFrom u h := by
  intro isBlock
  obtain ⟨_, from', upto⟩ := (mem_blocksFrom new.aligned new.header_aligned).mp isBlock
  rcases inv.lives.inUse l member with ⟨i, here, _, _⟩ | ⟨_, area, _⟩
  · exact new.not_region inv fresh from' (Nat.le_of_lt upto) (inv.region_of_piece here)
  · have apart := fresh _ area
    have length := inv.lives.enough l member
    have newStart := new.start_inside
    have newStop := new.end_inside
    simp only [Apart, hdrSize, SIZEOF_storExtHdr] at apart length newStop
    omega

theorem withExtent_of_mem (pieces : Pieces) {b : Nat} (member : b ∈ blocksFrom u h) :
    withExtent pieces u h b = some ⟨MAXINDEX, b != u⟩ :=
  if_pos member

theorem withExtent_of_not_mem (pieces : Pieces) {b : Nat} (absent : b ∉ blocksFrom u h) :
    withExtent pieces u h b = pieces b :=
  if_neg absent

theorem withExtent_free {b i : Nat} (found : withExtent pieces u h b = some ⟨i, true⟩) :
    (b ∈ blocksFrom u h ∧ b ≠ u ∧ i = MAXINDEX) ∨ (b ∉ blocksFrom u h ∧ pieces b = some ⟨i, true⟩) := by
  by_cases member : b ∈ blocksFrom u h
  · rw [withExtent_of_mem pieces member] at found
    have parts := Option.some.inj found
    refine .inl ⟨member, ?_, (congrArg Piece.index parts).symm⟩
    exact bne_iff_ne.mp (congrArg Piece.free parts)
  · rw [withExtent_of_not_mem pieces member] at found
    exact .inr ⟨member, found⟩

/-- Of the blocks of a new extent only the first is in use. -/
theorem withExtent_inUse {b i : Nat} (found : withExtent pieces u h b = some ⟨i, false⟩) (different : b ≠ u) :
    b ∉ blocksFrom u h ∧ pieces b = some ⟨i, false⟩ := by
  by_cases member : b ∈ blocksFrom u h
  · rw [withExtent_of_mem pieces member, bne_iff_ne.mpr different] at found
    cases found
  · rw [withExtent_of_not_mem pieces member] at found
    exact ⟨member, found⟩

section Parts

variable (new : NewExtent s alloc u h s')

include new

theorem NewExtent.first_mem : u ∈ blocksFrom u h :=
  (mem_blocksFrom new.aligned new.header_aligned).mpr ⟨new.aligned, Nat.le_refl _, new.below⟩

theorem NewExtent.ext_new : s'.ext h = ⟨alloc, u, 1⟩ := by
  rw [new.ext, Function.update_self]

theorem NewExtent.first_inUse (pieces : Pieces) : blocksInUse (withExtent pieces u h) u h = 1 := by
  have none : blocksInUse (fun _ => some ⟨MAXINDEX, true⟩) u h = 0 := by
    rw [blocksInUse, List.countP_eq_zero]
    intro b _
    simp
  rw [@blocksInUse_succ (fun _ => some ⟨MAXINDEX, true⟩) (withExtent pieces u h) _ _ _ new.first_mem rfl
    (by rw [withExtent_of_mem pieces new.first_mem]; simp)
    (fun c isOther different => by rw [withExtent_of_mem pieces isOther, bne_iff_ne.mpr different]), none]

theorem NewExtent.header_ok : s'.ExtentOk (withExtent pieces u h) h := by
  refine ⟨?_, new.header_aligned, ?_, ?_, ?_, ?_, ?_, ?_⟩
  · rw [new.ext_new]
    exact new.aligned
  · rw [new.ext_new]
    exact new.below
  · rw [new.ext_new]
    exact new.count
  · rw [new.ext_new, new.areas]
    exact List.mem_cons_self
  · rw [new.ext_new]
    exact new.start_inside
  · rw [new.ext_new]
    exact new.end_inside
  · rw [new.ext_new]
    intro b member
    have offset := (new.inside b member).2.2
    have before := ((mem_blocksFrom new.aligned new.header_aligned).mp member).2.2
    omega

variable (inv : s.Inv pieces []) (fresh : ∀ area ∈ s.areas, Apart (alloc, EXTENT_SIZE) area)

include inv fresh

theorem NewExtent.ext_old {h' : Nat} (member : h' ∈ s.storExtHdrQ) : s'.ext h' = s.ext h' := by
  rw [new.ext, Function.update_of_ne (new.header_new inv fresh member).1]

theorem NewExtent.region_outside {b : Nat} (inRegion : s.region b) : b ∉ blocksFrom u h := by
  intro member
  obtain ⟨_, from', upto⟩ := (mem_blocksFrom new.aligned new.header_aligned).mp member
  exact new.not_region inv fresh from' (Nat.le_of_lt upto) inRegion

theorem NewExtent.piece_outside {b : Nat} {e : Piece} (found : pieces b = some e) : b ∉ blocksFrom u h :=
  new.region_outside inv fresh (inv.region_of_piece found)

/-- The blocks of an extent that was there are none of the new ones. -/
theorem NewExtent.block_outside {h' b : Nat} (member : h' ∈ s.storExtHdrQ)
    (isOld : b ∈ blocksFrom (s.ext h').elemStart h') : b ∉ blocksFrom u h := by
  have ok := inv.extents.ok h' member
  obtain ⟨_, inside⟩ := (mem_blocksFrom ok.start_aligned ok.aligned).mp isOld
  exact new.region_outside inv fresh ⟨h', member, inside⟩

theorem NewExtent.region_eq :
    s'.region = fun x => s.region x ∨ InBlocks (2 ^ (MAXINDEX + unit)) (blocksFrom u h) x := by
  funext x
  rw [← MAXTWO_eq]
  apply propext
  rw [inBlocks_blocksFrom new.aligned new.header_aligned]
  constructor
  · rintro ⟨h', member, inside⟩
    rw [new.headers] at member
    rcases List.mem_cons.mp member with rfl | member
    · rw [new.ext_new] at inside
      exact .inr inside
    · rw [new.ext_old inv fresh member] at inside
      exact .inl ⟨h', member, inside⟩
  · rintro (⟨h', member, inside⟩ | inside)
    · refine ⟨h', ?_, ?_⟩
      · rw [new.headers]
        exact List.mem_cons_of_mem h member
      · rw [new.ext_old inv fresh member]
        exact inside
    · refine ⟨h, ?_, ?_⟩
      · rw [new.headers]
        exact List.mem_cons_self
      · rw [new.ext_new]
        exact inside

/-- The blocks of a new extent extend the partition. -/
theorem NewExtent.partition : Partition unit MAXINDEX s'.region (withExtent pieces u h) := by
  rw [new.region_eq inv fresh]
  apply inv.partition.add
  · intro b member
    rw [← MAXTWO_eq]
    exact ((mem_blocksFrom new.aligned new.header_aligned).mp member).1
  · intro b member inRegion
    exact new.region_outside inv fresh inRegion member

/-- The queues with the new blocks. -/
theorem NewExtent.elements : s'.Elements (withExtent pieces u h) [u] := by
  obtain ⟨placedBlocks, queues, nodup, members⟩ := new.queue
  have kept : ∀ {b e}, pieces b = some e → withExtent pieces u h b = some e := fun found =>
    (withExtent_of_not_mem pieces (new.piece_outside inv fresh found)).trans found
  refine ⟨?_, ?_, ?_, ?_, ?_, ?_⟩
  · intro i b
    rw [queues]
    by_cases isMax : i = MAXINDEX
    · subst isMax
      rw [Function.update_self, List.mem_append, members, inv.elements.queues]
      constructor
      · rintro (⟨member, different⟩ | found)
        · rw [withExtent_of_mem pieces member, bne_iff_ne.mpr different]
        · exact kept found
      · intro found
        rcases withExtent_free found with ⟨member, different, _⟩ | ⟨_, found⟩
        · exact .inl ⟨member, different⟩
        · exact .inr found
    · rw [Function.update_of_ne isMax, inv.elements.queues]
      constructor
      · exact kept
      · intro found
        rcases withExtent_free found with ⟨_, _, equal⟩ | ⟨_, found⟩
        · exact absurd equal isMax
        · exact found
  · intro i
    rw [queues]
    by_cases isMax : i = MAXINDEX
    · subst isMax
      rw [Function.update_self]
      apply List.nodup_append.mpr
      refine ⟨nodup, inv.elements.queue_nodup _, ?_⟩
      rintro b isNew c isOld rfl
      exact new.piece_outside inv fresh ((inv.elements.queues _ b).mp isOld) ((members b).mp isNew).1
    · rw [Function.update_of_ne isMax]
      exact inv.elements.queue_nodup i
  · intro b e found
    by_cases member : b ∈ blocksFrom u h
    · rw [withExtent_of_mem pieces member] at found
      rw [← Option.some.inj found]
      exact (new.inside b member).2.1
    · rw [withExtent_of_not_mem pieces member] at found
      rw [new.outside b member]
      exact inv.elements.index found
  · intro b i found
    rcases withExtent_free found with ⟨member, _, _⟩ | ⟨absent, found⟩
    · exact (new.inside b member).1
    · rw [new.outside b absent]
      exact inv.elements.free found
  · intro b i found absent
    rw [List.mem_singleton] at absent
    obtain ⟨outside, found⟩ := withExtent_inUse found absent
    rw [new.outside b outside]
    exact inv.elements.inUse found List.not_mem_nil
  · intro b i found small both
    rcases withExtent_free found with ⟨_, _, isMax⟩ | ⟨_, found⟩
    · omega
    · rcases withExtent_free both with ⟨_, _, isMax⟩ | ⟨_, both⟩
      · omega
      · exact inv.elements.alone found small both

theorem NewExtent.header_ok_old {h' : Nat} (member : h' ∈ s.storExtHdrQ) :
    s'.ExtentOk (withExtent pieces u h) h' := by
  have ok := inv.extents.ok h' member
  have same := new.ext_old inv fresh member
  refine ⟨?_, ok.aligned, ?_, ?_, ?_, ?_, ?_, ?_⟩
  · rw [same]
    exact ok.start_aligned
  · rw [same]
    exact ok.below
  · rw [same]
    exact ok.count
  · rw [same, new.areas]
    exact List.mem_cons_of_mem _ ok.area
  · rw [same]
    exact ok.start_inside
  · rw [same]
    exact ok.end_inside
  · rw [same]
    intro b isOld
    rw [new.outside b (new.block_outside inv fresh member isOld)]
    exact ok.offset b isOld

/-- The extents with the new one. -/
theorem NewExtent.extents : s'.Extents (withExtent pieces u h) := by
  refine ⟨?_, ?_, ?_, ?_, ?_⟩
  · intro h' member
    rw [new.headers] at member
    rcases List.mem_cons.mp member with rfl | member
    · exact new.header_ok
    · exact new.header_ok_old inv fresh member
  · rw [new.headers, List.map_cons, new.ext_new]
    have same : s.storExtHdrQ.map (fun h => (s'.ext h).extentStart) =
        s.storExtHdrQ.map fun h => (s.ext h).extentStart :=
      List.map_congr_left fun h' member => by rw [new.ext_old inv fresh member]
    rw [same]
    refine List.nodup_cons.mpr ⟨?_, inv.extents.different⟩
    intro member
    obtain ⟨h', isHeader, equal⟩ := List.mem_map.mp member
    exact (new.header_new inv fresh isHeader).2 equal
  · rw [new.curExtents, new.headers, List.length_cons, inv.extents.count]
  · intro h' member
    rw [new.headers] at member
    rcases List.mem_cons.mp member with rfl | member
    · rw [new.ext_new, new.first_inUse]
      rfl
    · rw [new.ext_old inv fresh member, inv.extents.allocd h' member, blocksInUse_congr]
      intro b isOld
      rw [withExtent_of_not_mem pieces (new.block_outside inv fresh member isOld)]
  · rw [new.areas]
    exact List.pairwise_cons.mpr ⟨fresh, inv.extents.areas⟩

/-- The storage in use stays. -/
theorem NewExtent.lives : s'.Lives (withExtent pieces u h) [u] := by
  have elem : ∀ l ∈ s.live, s'.elem l.uStor = s.elem l.uStor := fun l member =>
    new.outside _ (new.not_live inv fresh member)
  have notFirst : ∀ l ∈ s.live, l.uStor ∉ [u] := by
    intro l member first
    rw [List.mem_singleton] at first
    apply new.not_live inv fresh member
    rw [first]
    exact new.first_mem
  refine ⟨?_, ?_, ?_, ?_, ?_, ?_, ?_⟩
  · intro l member
    rw [new.live] at member
    rcases inv.lives.inUse l member with ⟨i, here, _, length⟩ | ⟨real, area, other⟩
    · refine .inl ⟨i, ?_, notFirst l member, length⟩
      rw [withExtent_of_not_mem pieces (new.piece_outside inv fresh here)]
      exact here
    · refine .inr ⟨?_, ?_, ?_⟩
      · rw [elem l member]
        exact real
      · rw [new.areas]
        exact List.mem_cons_of_mem _ area
      · intro h' inQueue
        rw [new.headers] at inQueue
        rcases List.mem_cons.mp inQueue with rfl | inQueue
        · rw [new.ext_new]
          have apart := fresh _ area
          have length := inv.lives.enough l member
          simp only [Apart, hdrSize, EXTENT_SIZE, SIZEOF_storExtHdr] at apart length
          show alloc ≠ l.uStor
          omega
        · rw [new.ext_old inv fresh inQueue]
          exact other h' inQueue
  · intro l member
    rw [new.live] at member
    rw [elem l member]
    exact inv.lives.length l member
  · rw [new.live]
    exact inv.lives.enough
  · rw [new.live]
    exact inv.lives.different
  · rw [new.live, new.total]
    exact inv.lives.total
  · intro b i found absent
    rw [List.mem_singleton] at absent
    rw [new.live]
    exact inv.lives.all (withExtent_inUse found absent).2 List.not_mem_nil
  · intro b member
    rw [List.mem_singleton.mp member, withExtent_of_mem pieces new.first_mem]
    exact ⟨MAXINDEX, by simp⟩

end Parts

/-- A new extent keeps the invariant, with its first block in hand. -/
theorem NewExtent.inv (new : NewExtent s alloc u h s') (inv : s.Inv pieces [])
    (fresh : ∀ area ∈ s.areas, Apart (alloc, EXTENT_SIZE) area) : s'.Inv (withExtent pieces u h) [u] :=
  ⟨new.partition inv fresh, new.elements inv fresh, new.extents inv fresh, new.lives inv fresh⟩

end NewExtents

/-! ## Finding an element -/

theorem withExtent_first {u h : Nat} (aligned : MAXTWO ∣ u) (headerAligned : MAXTWO ∣ h) (below : u < h) :
    withExtent pieces u h u = some ⟨MAXINDEX, false⟩ := by
  have isBlock : u ∈ blocksFrom u h :=
    (mem_blocksFrom aligned headerAligned).mpr ⟨aligned, Nat.le_refl _, below⟩
  rw [withExtent, if_pos isBlock]
  simp

/-- What an element that was found is like. -/
def Found (s s' : Storage) (u i : Nat) : Prop :=
  ∃ pieces', s'.Inv pieces' [u] ∧ pieces' u = some ⟨i, false⟩ ∧
    s'.live = s.live ∧ s'.totalAlloc = s.totalAlloc

/-- One half of the found element is given on. -/
theorem Found.split {s' : Storage} {u i : Nat} (found : Found s s' u (i + 1)) :
    Found s (splitElem i u s') u i := by
  obtain ⟨pieces', inv, here, live, total⟩ := found
  obtain ⟨inv', live', total'⟩ := splitElem_spec inv here
  refine ⟨_, inv', ?_, live'.trans live, total'.trans total⟩
  have positive := Nat.two_pow_pos (i + unit)
  rw [Function.update_of_ne (by omega), Function.update_self]

/-- An element comes from the queue, or from where one is found if there is none. -/
theorem GET_QUEUED_ELEMENT_found (inv : s.Inv pieces []) {i : Nat}
    {find : Storage → Option (Storage × Nat)}
    (finds : ∃ s' u, find s = some (s', u) ∧ Found s s' u i) :
    ∃ s' u, GET_QUEUED_ELEMENT find i s = some (s', u) ∧ Found s s' u i := by
  cases queue : s.freeStorElemQs i with
  | nil =>
    rw [GET_QUEUED_ELEMENT, queue]
    exact finds
  | cons u rest =>
    obtain ⟨s', taken, inv', live, total⟩ := GET_QUEUED_ELEMENT_queued inv queue find
    exact ⟨s', u, taken, _, inv', Function.update_self .., live, total⟩

/-- An element of the size, from a queue or split. -/
theorem findStorElem_spec {alloc : Nat} (inv : s.Inv pieces [])
    (fresh : ∀ area ∈ s.areas, Apart (alloc, EXTENT_SIZE) area) {above : Nat} (le : above ≤ MAXINDEX) :
    ∃ s' u, findStorElem alloc above s = some (s', u) ∧ Found s s' u (MAXINDEX - above) := by
  induction above with
  | zero =>
    obtain ⟨h, new⟩ := newExtent_changes alloc s
    refine ⟨_, _, rfl, _, new.inv inv fresh, ?_, new.live, new.total⟩
    exact withExtent_first new.aligned new.header_aligned new.below
  | succ above ih =>
    have smaller : MAXINDEX - (above + 1) + 1 = MAXINDEX - above := by omega
    obtain ⟨s', u, found, isFound⟩ := GET_QUEUED_ELEMENT_found inv (ih (by omega))
    rw [findStorElem, found, Option.bind_eq_bind, Option.bind_some]
    refine ⟨_, u, rfl, ?_⟩
    rw [← smaller] at isFound
    exact isFound.split

/-! ## Storage that is given out -/

/-- One more storage in use. -/
theorem Storage.Lives.cons {hand : List Nat} (lives : s.Lives pieces hand) {l : LiveStorage} {s' : Storage}
    (notHere : ∀ k ∈ s.live, k.uStor ≠ l.uStor) (other : ∀ {b}, b ≠ l.uStor → s'.elem b = s.elem b)
    (written : (s'.elem l.uStor).realLen = l.realLen) (enough : l.size + hdrSize ≤ l.realLen)
    (live : s'.live = l :: s.live) (total : s'.totalAlloc = s.totalAlloc + l.realLen)
    (here : s'.InUse pieces [] l) (old : ∀ k ∈ s.live, s'.InUse pieces [] k) (given : ∀ a ∈ hand, a = l.uStor) :
    s'.Lives pieces [] := by
  refine ⟨?_, ?_, ?_, ?_, ?_, ?_, ?_⟩
  · intro k member
    rw [live] at member
    rcases List.mem_cons.mp member with rfl | member
    · exact here
    · exact old k member
  · intro k member
    rw [live] at member
    rcases List.mem_cons.mp member with rfl | member
    · exact written
    · rw [other (notHere k member)]
      exact lives.length k member
  · intro k member
    rw [live] at member
    rcases List.mem_cons.mp member with rfl | member
    · exact enough
    · exact lives.enough k member
  · rw [live, List.map_cons, List.nodup_cons]
    refine ⟨?_, lives.different⟩
    intro member
    obtain ⟨k, isLive, equal⟩ := List.mem_map.mp member
    exact notHere k isLive equal
  · rw [live, List.map_cons, List.sum_cons, total, lives.total, Nat.add_comm]
  · intro b i found _
    rw [live]
    by_cases isHere : b = l.uStor
    · exact ⟨_, List.mem_cons_self, isHere.symm⟩
    · obtain ⟨k, isLive, equal⟩ := lives.all found fun inHand => isHere (given b inHand)
      exact ⟨k, List.mem_cons_of_mem _ isLive, equal⟩
  · intro b member
    exact absurd member List.not_mem_nil

/-- The element in hand is in use now. -/
theorem Storage.Inv.give {u i size : Nat} (inv : s.Inv pieces [u]) (here : pieces u = some ⟨i, false⟩)
    (enough : size + hdrSize ≤ TwoTable i) {s' : Storage}
    (elem : s'.elem = Function.update s.elem u
      { s.elem u with realLen := TwoTable i, state := Allocated })
    (ext : s'.ext = s.ext) (queues : s'.freeStorElemQs = s.freeStorElemQs)
    (headers : s'.storExtHdrQ = s.storExtHdrQ) (areas : s'.areas = s.areas)
    (curExtents : s'.curExtents = s.curExtents) (live : s'.live = ⟨u, TwoTable i, size⟩ :: s.live)
    (total : s'.totalAlloc = s.totalAlloc + TwoTable i) : s'.Inv pieces [] := by
  have other : ∀ {b}, b ≠ u → s'.elem b = s.elem b := by
    intro b different
    rw [elem, Function.update_of_ne different]
  have written : s'.elem u = { s.elem u with realLen := TwoTable i, state := Allocated } := by
    rw [elem, Function.update_self]
  have field : ∀ {β : Type} (field : StorElem → β),
      (∀ e length state, field { e with realLen := length, state := state } = field e) →
      ∀ b, field (s'.elem b) = field (s.elem b) := by
    intro β field keeps b
    by_cases isHere : b = u
    · rw [isHere, written, keeps]
    · rw [other isHere]
  have same : SameExtents s s' := by
    refine ⟨headers, ?_, ?_, areas, curExtents, field StorElem.extHdrOffset fun _ _ _ => rfl⟩
    · exact fun h => by rw [ext]
    · exact fun h => by rw [ext]
  have notHere : ∀ l ∈ s.live, l.uStor ≠ u := by
    intro l member
    apply inv.live_ne member (inv.region_of_piece here)
    intro _ _
    exact List.mem_singleton_self u
  refine ⟨?_, ?_, ?_, ?_⟩
  · rw [same.region]
    exact inv.partition
  · refine ⟨?_, ?_, ?_, ?_, ?_, inv.elements.alone⟩
    · rw [queues]
      exact inv.elements.queues
    · rw [queues]
      exact inv.elements.queue_nodup
    · intro b e found
      rw [field StorElem.queueIndex fun _ _ _ => rfl]
      exact inv.elements.index found
    · intro b j found
      have different : b ≠ u := by
        rintro rfl
        rw [here] at found
        cases found
      rw [other different]
      exact inv.elements.free found
    · intro b j found _
      by_cases isHere : b = u
      · rw [isHere, written]
      · rw [other isHere]
        exact inv.elements.inUse found (by simpa using isHere)
  · apply inv.extents.congr_whole same
    · exact fun h => by rw [ext]
    · exact fun b => Iff.rfl
  · apply inv.lives.cons notHere other (by rw [written]) enough live total (.inl ⟨i, here, List.not_mem_nil, rfl⟩)
    · intro l member
      rcases inv.lives.inUse l member with ⟨j, found, _, length⟩ | ⟨real, area, notExtent⟩
      · exact .inl ⟨j, found, List.not_mem_nil, length⟩
      · refine .inr ⟨?_, ?_, ?_⟩
        · rw [field StorElem.queueIndex fun _ _ _ => rfl]
          exact real
        · rw [same.areas]
          exact area
        · intro h inQueue
          rw [same.headers] at inQueue
          rw [same.extentStart]
          exact notExtent h inQueue
    · exact fun a inHand => List.mem_singleton.mp inHand

/-- How much the system is asked for, if it is asked. -/
def systemSize (size : Nat) : Nat :=
  if size + hdrSize ≤ MAXTWO then EXTENT_SIZE else size + hdrSize

/-- Storage with an area of its own. -/
theorem Storage.Inv.giveReal {u size : Nat} (inv : s.Inv pieces [])
    (fresh : ∀ area ∈ s.areas, Apart (u, size + hdrSize) area) {s' : Storage}
    (elem : s'.elem = Function.update s.elem u { s.elem u with
      queueIndex := REAL_MALLOC
      realLen := size + hdrSize
      state := Allocated })
    (ext : s'.ext = s.ext) (queues : s'.freeStorElemQs = s.freeStorElemQs)
    (headers : s'.storExtHdrQ = s.storExtHdrQ) (areas : s'.areas = (u, size + hdrSize) :: s.areas)
    (curExtents : s'.curExtents = s.curExtents) (live : s'.live = ⟨u, size + hdrSize, size⟩ :: s.live)
    (total : s'.totalAlloc = s.totalAlloc + (size + hdrSize)) : s'.Inv pieces [] := by
  have outside : ¬ s.region u := by
    rintro ⟨h, member, inside⟩
    have ok := inv.extents.ok h member
    have apart := fresh _ ok.area
    have start := ok.start_inside
    have stop := ok.end_inside
    simp only [Apart, hdrSize] at apart
    omega
  have notHere : ∀ l ∈ s.live, l.uStor ≠ u := by
    rintro l member rfl
    rcases inv.lives.inUse l member with ⟨i, here, _, _⟩ | ⟨_, area, _⟩
    · exact outside (inv.region_of_piece here)
    · have apart := fresh _ area
      have length := inv.lives.enough l member
      simp only [Apart, hdrSize] at apart length
      omega
  have other : ∀ {b}, b ≠ u → s'.elem b = s.elem b := by
    intro b different
    rw [elem, Function.update_of_ne different]
  have written : s'.elem u = { s.elem u with
      queueIndex := REAL_MALLOC
      realLen := size + hdrSize
      state := Allocated } := by
    rw [elem, Function.update_self]
  apply inv.elsewhere _ (fun h _ => by rw [ext]) queues headers curExtents
  · rw [areas]
    exact List.pairwise_cons.mpr ⟨fresh, inv.extents.areas⟩
  · intro h member
    rw [areas]
    exact List.mem_cons_of_mem _ (inv.extents.ok h member).area
  · refine inv.lives.cons notHere other (by rw [written]) (Nat.le_refl _) live total (.inr ⟨?_, ?_, ?_⟩) ?_
      fun a inHand => absurd inHand List.not_mem_nil
    · rw [written]
    · rw [areas]
      exact List.mem_cons_self
    · intro h inQueue
      rw [headers] at inQueue
      rw [ext]
      have apart := fresh _ (inv.extents.ok h inQueue).area
      simp only [Apart, hdrSize, EXTENT_SIZE, SIZEOF_storExtHdr] at apart
      show (s.ext h).extentStart ≠ u
      omega
    · intro l member
      rcases inv.lives.inUse l member with ⟨i, here, absent, length⟩ | ⟨real, area, notExtent⟩
      · exact .inl ⟨i, here, absent, length⟩
      · refine .inr ⟨?_, ?_, ?_⟩
        · rw [other (notHere l member)]
          exact real
        · rw [areas]
          exact List.mem_cons_of_mem _ area
        · rw [headers, ext]
          exact notExtent
  · intro b e found
    apply other
    rintro rfl
    exact outside (inv.region_of_piece found)

/-- Every request has storage, which is in use then. -/
theorem gtm_malloc_main_spec (inv : s.Inv pieces []) {addr size : Nat} (positive : 0 < size)
    (fits : size + hdrSize < 2 ^ 64) (fresh : ∀ area ∈ s.areas, Apart (addr, systemSize size) area) :
    ∃ s' u length pieces', gtm_malloc_main addr size s = some (s', some (u + hdrSize)) ∧
      s'.Inv pieces' [] ∧ s'.live = ⟨u, length, size⟩ :: s.live := by
  rw [gtm_malloc_main, if_neg (by omega), if_neg (by omega)]
  by_cases small : size + hdrSize ≤ MAXTWO
  · rw [systemSize, if_pos small] at fresh
    obtain ⟨index, enough⟩ := GetSizeIndex_spec (by omega) small
    dsimp only
    rw [if_pos small]
    generalize GetSizeIndex (size + hdrSize) = i at *
    obtain ⟨t, u, found, pieces', inv', here, live, total⟩ :=
      GET_QUEUED_ELEMENT_found inv (Nat.sub_sub_self index ▸ findStorElem_spec inv fresh (Nat.sub_le MAXINDEX i))
    rw [found, Option.bind_eq_bind, Option.bind_some]
    refine ⟨_, u, TwoTable i, pieces', rfl, ?_, ?_⟩
    · exact inv'.give here enough rfl rfl rfl rfl rfl rfl rfl rfl
    · exact congrArg _ live
  · rw [systemSize, if_neg small] at fresh
    dsimp only
    rw [if_neg small]
    refine ⟨_, addr, size + hdrSize, pieces, rfl, ?_, rfl⟩
    exact inv.giveReal fresh rfl rfl rfl rfl rfl rfl rfl rfl

end Ydb
