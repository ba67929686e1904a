import Ydb.SmallStorageFree

/-!
# Returning extents

The blocks of an extent that is not in use are taken off the queue, and the extent
is returned to the system.
-/

namespace Ydb

open Lib

variable {s : Storage} {pieces : Pieces}

/-! ## The blocks -/

/-- The queues without the blocks of an extent. -/
structure Unqueued (s s' : Storage) (blocks : List Nat) : Prop where
  queues : ∀ i a, a ∈ s'.freeStorElemQs i ↔ a ∈ s.freeStorElemQs i ∧ a ∉ blocks
  nodup : ∀ i, (s'.freeStorElemQs i).Nodup
  rest : s' = { s with freeStorElemQs := s'.freeStorElemQs }

theorem mem_blocksFrom_next {u h b : Nat} (aligned : MAXTWO ∣ u) (headerAligned : MAXTWO ∣ h) (less : u < h) :
    b ∈ blocksFrom u h ↔ b = u ∨ b ∈ blocksFrom (u + MAXTWO) h := by
  have next : MAXTWO ∣ u + MAXTWO := Nat.dvd_add aligned (Nat.dvd_refl _)
  have positive : 0 < MAXTWO := by decide
  rw [mem_blocksFrom aligned headerAligned, mem_blocksFrom next headerAligned]
  constructor
  · rintro ⟨bAligned, after, before⟩
    by_cases isFirst : b = u
    · exact .inl isFirst
    · have apart := Nat.le_of_dvd (by omega) (Nat.dvd_sub bAligned aligned)
      exact .inr ⟨bAligned, by omega, before⟩
  · rintro (rfl | ⟨bAligned, after, before⟩)
    · exact ⟨aligned, Nat.le_refl _, less⟩
    · exact ⟨bAligned, by omega, before⟩

/-- The blocks of an extent leave their queue. -/
theorem releaseLoop_spec {h : Nat} (headerAligned : MAXTWO ∣ h) {rounds : Nat} :
    ∀ {u : Nat} {s : Storage}, MAXTWO ∣ u → u ≤ h → h < u + rounds * MAXTWO →
    (∀ i, (s.freeStorElemQs i).Nodup) →
    (∀ b ∈ blocksFrom u h, (s.elem b).state = Free ∧ (s.elem b).queueIndex = MAXINDEX ∧
      b ∈ s.freeStorElemQs MAXINDEX) →
    ∃ s', releaseLoop h rounds u s = some s' ∧ Unqueued s s' (blocksFrom u h) := by
  induction rounds with
  | zero =>
    intro u s _ below enough
    omega
  | succ rounds ih =>
    intro u s aligned below enough nodup free
    rw [releaseLoop]
    rcases Nat.eq_or_lt_of_le below with atEnd | less
    · rw [if_neg (by omega), if_pos atEnd]
      have none : ∀ b, b ∉ blocksFrom u h := by
        intro b member
        have inside := (mem_blocksFrom aligned headerAligned).mp member
        omega
      refine ⟨s, rfl, ?_, nodup, rfl⟩
      intro i a
      exact ⟨fun member => ⟨member, none a⟩, And.left⟩
    · have next : MAXTWO ∣ u + MAXTWO := Nat.dvd_add aligned (Nat.dvd_refl _)
      have apart := Nat.le_of_dvd (by omega) (Nat.dvd_sub headerAligned aligned)
      have members : ∀ b, b ∈ blocksFrom u h ↔ b = u ∨ b ∈ blocksFrom (u + MAXTWO) h := fun b =>
        mem_blocksFrom_next aligned headerAligned less
      obtain ⟨isFree, index, queued⟩ := free u ((members u).mpr (.inl rfl))
      rw [if_pos less, if_pos ⟨isFree, index⟩, DEQUEUE_STOR_ELEM_eq (Nat.le_refl _) queued,
        Option.bind_eq_bind, Option.bind_some]
      have later : ∀ b ∈ blocksFrom (u + MAXTWO) h, b ≠ u := by
        rintro b member rfl
        have inside := (mem_blocksFrom next headerAligned).mp member
        have positive : 0 < MAXTWO := by decide
        omega
      obtain ⟨s', result, unqueued⟩ := @ih (u + MAXTWO)
        { s with freeStorElemQs := fun idx => (s.freeStorElemQs idx).erase u } next (by omega)
        (by rw [Nat.succ_mul] at enough; omega) (fun i => (nodup i).erase u) (by
          intro b member
          obtain ⟨isFree, index, queued⟩ := free b ((members b).mpr (.inr member))
          exact ⟨isFree, index, (List.mem_erase_of_ne (later b member)).mpr queued⟩)
      refine ⟨s', result, ?_, unqueued.nodup, unqueued.rest⟩
      intro i a
      rw [unqueued.queues, (nodup i).mem_erase_iff, members, not_or]
      constructor
      · rintro ⟨⟨different, member⟩, absent⟩
        exact ⟨member, different, absent⟩
      · rintro ⟨member, different, absent⟩
        exact ⟨⟨different, member⟩, absent⟩

/-! ## The extent -/

/-- What is left after an extent was returned. -/
structure Released (s s' : Storage) (h : Nat) : Prop where
  unqueued : ∀ i a, a ∈ s'.freeStorElemQs i ↔
    a ∈ s.freeStorElemQs i ∧ a ∉ blocksFrom (s.ext h).elemStart h
  nodup : ∀ i, (s'.freeStorElemQs i).Nodup
  elem : s'.elem = s.elem
  ext : s'.ext = s.ext
  headers : s'.storExtHdrQ = s.storExtHdrQ.erase h
  areas : s'.areas = s.areas.erase ((s.ext h).extentStart, EXTENT_SIZE)
  curExtents : s'.curExtents = s.curExtents - 1
  live : s'.live = s.live
  total : s'.totalAlloc = s.totalAlloc

/-- The pieces without the blocks of an extent. -/
def withoutExtent (pieces : Pieces) (start h : Nat) : Pieces := fun a =>
  if a ∈ blocksFrom start h then none else pieces a

section Release

variable {s' : Storage} {h : Nat}

/-- A release keeps the invariant. -/
theorem Released.inv (released : Released s s' h) (inv : s.Inv pieces []) (member : h ∈ s.storExtHdrQ)
    (whole : ∀ b ∈ blocksFrom (s.ext h).elemStart h, pieces b = some ⟨MAXINDEX, true⟩) :
    s'.Inv (withoutExtent pieces (s.ext h).elemStart h) [] := by
  have ok := inv.extents.ok h member
  have headersNodup : s.storExtHdrQ.Nodup := List.Nodup.of_map _ inv.extents.different
  have left : ∀ {h'}, h' ∈ s'.storExtHdrQ ↔ h' ≠ h ∧ h' ∈ s.storExtHdrQ := by
    intro h'
    rw [released.headers, headersNodup.mem_erase_iff]
  have old : ∀ {b e}, withoutExtent pieces (s.ext h).elemStart h b = some e →
      b ∉ blocksFrom (s.ext h).elemStart h ∧ pieces b = some e := by
    intro b e found
    rw [withoutExtent] at found
    split at found
    · cases found
    next absent => exact ⟨absent, found⟩
  have kept : ∀ {b}, b ∉ blocksFrom (s.ext h).elemStart h →
      withoutExtent pieces (s.ext h).elemStart h b = pieces b := fun absent => if_neg absent
  have inUseKept : ∀ {b i}, pieces b = some ⟨i, false⟩ →
      withoutExtent pieces (s.ext h).elemStart h b = some ⟨i, false⟩ := by
    intro b i found
    rw [kept, found]
    intro isBlock
    rw [whole b isBlock] at found
    cases found
  have otherStart : ∀ {h'}, h' ≠ h → h' ∈ s.storExtHdrQ →
      (s.ext h').extentStart ≠ (s.ext h).extentStart := by
    intro h' different inQueue same
    exact different (List.inj_on_of_nodup_map inv.extents.different inQueue member same)
  have otherBlocks : ∀ {h' b}, h' ≠ h → h' ∈ s.storExtHdrQ → (s.ext h').elemStart ≤ b ∧ b < h' →
      b ∉ blocksFrom (s.ext h).elemStart h := by
    intro h' b different inQueue inside isBlock
    exact different (inv.extents.unique inQueue member inside
      ((mem_blocksFrom ok.start_aligned ok.aligned).mp isBlock).2)
  refine ⟨?_, ?_, ?_, ?_⟩
  · have region : s'.region = fun x => s.region x ∧
        ¬ InBlocks (2 ^ (MAXINDEX + unit)) (blocksFrom (s.ext h).elemStart h) x := by
      funext x
      apply propext
      rw [← MAXTWO_eq, inBlocks_blocksFrom ok.start_aligned ok.aligned, Storage.region, released.ext]
      constructor
      · rintro ⟨h', inQueue, inside⟩
        obtain ⟨different, inQueue⟩ := left.mp inQueue
        exact ⟨⟨h', inQueue, inside⟩, fun inside' => different
          (inv.extents.unique inQueue member inside inside')⟩
      · rintro ⟨⟨h', inQueue, inside⟩, outside⟩
        refine ⟨h', left.mpr ⟨?_, inQueue⟩, inside⟩
        rintro rfl
        exact outside inside
    rw [region]
    apply inv.partition.remove
    intro b isBlock
    exact ⟨true, whole b isBlock⟩
  · refine ⟨?_, released.nodup, ?_, ?_, ?_, ?_⟩
    · intro i a
      rw [released.unqueued, inv.elements.queues]
      constructor
      · rintro ⟨found, absent⟩
        rw [kept absent]
        exact found
      · intro found
        exact ⟨(old found).2, (old found).1⟩
    · intro a e found
      rw [released.elem]
      exact inv.elements.index (old found).2
    · intro a i found
      rw [released.elem]
      exact inv.elements.free (old found).2
    · intro a i found absent
      rw [released.elem]
      exact inv.elements.inUse (old found).2 absent
    · intro a i found small both
      exact inv.elements.alone (old found).2 small (old both).2
  · refine ⟨?_, ?_, ?_, ?_, ?_⟩
    · intro h' inQueue
      obtain ⟨different, inQueue⟩ := left.mp inQueue
      have ok' := inv.extents.ok h' inQueue
      refine ⟨?_, ok'.aligned, ?_, ?_, ?_, ?_, ?_, ?_⟩
      · rw [released.ext]
        exact ok'.start_aligned
      · rw [released.ext]
        exact ok'.below
      · rw [released.ext]
        exact ok'.count
      · rw [released.ext, released.areas]
        apply (List.mem_erase_of_ne _).mpr ok'.area
        intro same
        exact otherStart different inQueue (congrArg Prod.fst same)
      · rw [released.ext]
        exact ok'.start_inside
      · rw [released.ext]
        exact ok'.end_inside
      · rw [released.ext, released.elem]
        exact ok'.offset
    · rw [released.headers, released.ext]
      exact inv.extents.different.sublist (List.erase_sublist.map _)
    · rw [released.curExtents, released.headers, List.length_erase_of_mem member, inv.extents.count]
    · intro h' inQueue
      obtain ⟨different, inQueue⟩ := left.mp inQueue
      have ok' := inv.extents.ok h' inQueue
      rw [released.ext, inv.extents.allocd h' inQueue, blocksInUse_congr]
      intro b isBlock
      have inside := ((mem_blocksFrom ok'.start_aligned ok'.aligned).mp isBlock).2
      rw [kept (otherBlocks different inQueue inside)]
    · rw [released.areas]
      exact inv.extents.areas.sublist List.erase_sublist
  · refine ⟨?_, ?_, ?_, ?_, ?_, ?_, ?_⟩
    · intro l isLive
      rw [released.live] at isLive
      rcases inv.lives.inUse l isLive with ⟨i, found, absent, length⟩ | ⟨real, area, notExtent⟩
      · exact .inl ⟨i, inUseKept found, absent, length⟩
      · refine .inr ⟨?_, ?_, ?_⟩
        · rw [released.elem]
          exact real
        · rw [released.areas]
          apply (List.mem_erase_of_ne _).mpr area
          intro same
          exact notExtent h member (congrArg Prod.fst same).symm
        · intro h' inQueue
          rw [released.ext]
          exact notExtent h' (left.mp inQueue).2
    · rw [released.live, released.elem]
      exact inv.lives.length
    · rw [released.live]
      exact inv.lives.enough
    · rw [released.live]
      exact inv.lives.different
    · rw [released.live, released.total]
      exact inv.lives.total
    · intro a i found absent
      rw [released.live]
      exact inv.lives.all (old found).2 absent
    · intro a isHand
      exact absurd isHand List.not_mem_nil

/-- An extent no block of which is in use can be returned. -/
theorem releaseExtent_spec (inv : s.Inv pieces []) (member : h ∈ s.storExtHdrQ)
    (unused : (s.ext h).elemsAllocd = 0) :
    (∀ b ∈ blocksFrom (s.ext h).elemStart h, pieces b = some ⟨MAXINDEX, true⟩) ∧
    ∃ s', releaseExtent h s = some s' ∧ Released s s' h := by
  have ok := inv.extents.ok h member
  have whole : ∀ b ∈ blocksFrom (s.ext h).elemStart h, pieces b = some ⟨MAXINDEX, true⟩ := by
    have counted := inv.extents.allocd h member
    rw [unused] at counted
    have none : blocksInUse pieces (s.ext h).elemStart h = 0 := by omega
    intro b isBlock
    have free := List.countP_eq_zero.mp none b isBlock
    exact of_not_not (mt bne_iff_ne.mpr free)
  refine ⟨whole, ?_⟩
  have below := ok.below
  have count := ok.count
  obtain ⟨t, result, unqueued⟩ := @releaseLoop_spec h ok.aligned (ELEMS_PER_EXTENT + 2)
    (s.ext h).elemStart s ok.start_aligned (Nat.le_of_lt below)
    (by simp only [ELEMS_PER_EXTENT, MAXTWO] at count ⊢; omega) inv.elements.queue_nodup (by
      intro b isBlock
      have found := whole b isBlock
      exact ⟨inv.elements.free found, inv.elements.index found, (inv.elements.queues _ b).mpr found⟩)
  rw [releaseExtent, result, Option.bind_eq_bind, Option.bind_some]
  refine ⟨_, rfl, unqueued.queues, unqueued.nodup, ?_, ?_, ?_, ?_, ?_, ?_, ?_⟩
  all_goals
    rw [unqueued.rest]
    rfl

end Release

/-! ## Any storage -/

/-- Nothing in use is in an extent all blocks of which are free. -/
theorem Storage.Inv.not_live_of_whole (inv : s.Inv pieces []) {h : Nat} (member : h ∈ s.storExtHdrQ)
    (whole : ∀ b ∈ blocksFrom (s.ext h).elemStart h, pieces b = some ⟨MAXINDEX, true⟩)
    {l : LiveStorage} (isLive : l ∈ s.live) : ¬ ((s.ext h).elemStart ≤ l.uStor ∧ l.uStor < h) := by
  intro inside
  have ok := inv.extents.ok h member
  rcases inv.lives.inUse l isLive with ⟨i, found, _, _⟩ | ⟨_, area, notExtent⟩
  · obtain ⟨b, isBlock, from', upto⟩ := (inBlocks_blocksFrom ok.start_aligned ok.aligned).mpr inside
    rw [MAXTWO_eq] at upto
    have here := whole b isBlock
    have same := inv.partition.apart (covers_of here from' upto) (covers_self found)
    rw [← same, here] at found
    cases found
  · exact inv.real_outside isLive area notExtent ⟨h, member, inside⟩

/-- What storage that is returned leaves. An area goes back to the system if it was for this
storage alone, or if it is an extent everything else in which is free. -/
structure TakenBack (s : Storage) (pieces : Pieces) (l : LiveStorage) (s' : Storage) : Prop where
  live : s'.live = liveWithout s.live l.uStor
  areas : ∀ area ∈ s.areas, area ∈ s'.areas ∨ area = (l.uStor, l.realLen) ∨
    ∃ h ∈ s.storExtHdrQ, area = ((s.ext h).extentStart, EXTENT_SIZE) ∧
      STOR_EXTENTS_KEEP < s.curExtents ∧
      ∀ a i, pieces a = some ⟨i, false⟩ → (s.ext h).elemStart ≤ a → a < h → a = l.uStor

/-- An area that was too large for the manager goes back. -/
theorem Storage.Inv.takeBackReal {l : LiveStorage} (inv : s.Inv pieces []) (member : l ∈ s.live)
    (area : (l.uStor, l.realLen) ∈ s.areas)
    (notExtent : ∀ h ∈ s.storExtHdrQ, (s.ext h).extentStart ≠ l.uStor) {s' : Storage}
    (elem : s'.elem = s.elem) (ext : s'.ext = s.ext) (queues : s'.freeStorElemQs = s.freeStorElemQs)
    (headers : s'.storExtHdrQ = s.storExtHdrQ) (areas : s'.areas = s.areas.erase (l.uStor, l.realLen))
    (curExtents : s'.curExtents = s.curExtents) (live : s'.live = liveWithout s.live l.uStor)
    (total : s'.totalAlloc = s.totalAlloc - l.realLen) : s'.Inv pieces [] := by
  have outside := inv.real_outside member area notExtent
  apply inv.elsewhere (fun _ => by rw [elem]) (fun h _ => by rw [ext]) queues headers curExtents
  · rw [areas]
    exact inv.extents.areas.sublist List.erase_sublist
  · intro h inQueue
    rw [areas]
    apply (List.mem_erase_of_ne _).mpr (inv.extents.ok h inQueue).area
    intro same
    exact notExtent h inQueue (congrArg Prod.fst same)
  · apply inv.lives.without member (fun _ => by rw [elem]) live total
    · intro k isLive different
      rcases inv.lives.inUse k isLive with ⟨i, found, absent, length⟩ | ⟨real, kArea, kNotExtent⟩
      · exact .inl ⟨i, found, absent, length⟩
      · refine .inr ⟨?_, ?_, ?_⟩
        · rw [elem]
          exact real
        · rw [areas]
          apply (List.mem_erase_of_ne _).mpr kArea
          intro same
          exact different (congrArg Prod.fst same)
        · rw [headers, ext]
          exact kNotExtent
    · intro a i found _ same
      apply outside
      rw [← same]
      exact inv.region_of_piece found
    · exact inv.lives.hand_inUse

/-- A block that became free as a whole. -/
theorem blockFreed_spec {s₀ s₁ : Storage} {l : LiveStorage} {u : Nat} {pieces₁ : Pieces}
    (inv : s.Inv pieces []) (same : SameExtents s s₀) (live : s₀.live = liveWithout s.live l.uStor)
    (ready : ReadyToQueue s₀ s₁ u MAXINDEX pieces₁) :
    ∃ s' pieces', blockFreed u (s₁.ENQUEUE_STOR_ELEM MAXINDEX u) = some s' ∧ s'.Inv pieces' [] ∧
      TakenBack s pieces l s' := by
  obtain ⟨h, member, header, queuedInv⟩ := ready.blockQueued
  have sameAll := same.trans ready.same
  rw [blockFreed, Storage.ENQUEUE_elem, header]
  generalize resultEq : (s₁.ENQUEUE_STOR_ELEM MAXINDEX u).setExt h (fun e =>
    { e with elemsAllocd := e.elemsAllocd - 1 }) = t at *
  have sameT : SameExtents s₁ t := by
    subst resultEq
    refine ⟨rfl, ?_, ?_, rfl, rfl, fun _ => rfl⟩
    · exact Storage.setExt_same _ h _ StorExtHdr.extentStart fun _ => rfl
    · exact Storage.setExt_same _ h _ StorExtHdr.elemStart fun _ => rfl
  have liveT : t.live = liveWithout s.live l.uStor := by
    subst resultEq
    exact ready.live.trans live
  have sameAll := sameAll.trans sameT
  have memberT : h ∈ t.storExtHdrQ := by
    rw [sameT.headers]
    exact member
  split
  next ripe =>
    obtain ⟨whole, s', result, released⟩ := releaseExtent_spec queuedInv memberT ripe.2
    refine ⟨s', _, result, released.inv queuedInv memberT whole, released.live.trans liveT, ?_⟩
    intro area held
    by_cases isExtent : area = ((s.ext h).extentStart, EXTENT_SIZE)
    · refine .inr (.inr ⟨h, sameAll.headers ▸ memberT, isExtent, sameAll.curExtents ▸ ripe.1, ?_⟩)
      intro a i found from' upto
      by_contra other
      obtain ⟨k, isLive, rfl⟩ := inv.lives.all found List.not_mem_nil
      have liveStill : k ∈ t.live := by
        rw [liveT, mem_liveWithout]
        exact ⟨isLive, other⟩
      apply queuedInv.not_live_of_whole memberT whole liveStill
      rw [sameAll.elemStart]
      exact ⟨from', upto⟩
    · left
      rw [released.areas, sameAll.areas, sameAll.extentStart]
      exact (List.mem_erase_of_ne isExtent).mpr held
  · refine ⟨t, _, rfl, queuedInv, liveT, ?_⟩
    intro area held
    left
    rw [sameAll.areas]
    exact held

/-- The state in which an element that is returned is combined. -/
def returned (s : Storage) (u i : Nat) : Storage := { s with
  elem := Function.update s.elem u { s.elem u with state := Free }
  totalUsed := s.totalUsed - (s.elem u).realLen
  totalAlloc := s.totalAlloc - TwoTable i
  live := liveWithout s.live u }

theorem gtm_free_main_small {u i : Nat} (index : (s.elem u).queueIndex = i) :
    gtm_free_main (some (u + hdrSize)) s =
      (combineLoop MAXINDEX i u (returned s u i)).bind fun (t, v, j) =>
        if j = MAXINDEX then blockFreed v (t.ENQUEUE_STOR_ELEM j v)
        else some (t.ENQUEUE_STOR_ELEM j v) := by
  rw [gtm_free_main]
  dsimp only
  rw [Nat.add_sub_cancel, index, if_pos (Int.natCast_nonneg i), Int.toNat_natCast]
  rfl

/-- An area of its own goes back to the system. -/
theorem gtm_free_main_real {u : Nat} (index : (s.elem u).queueIndex = REAL_MALLOC) :
    gtm_free_main (some (u + hdrSize)) s = some { s with
      areas := s.areas.erase (u, (s.elem u).realLen)
      totalUsed := s.totalUsed - (s.elem u).realLen
      totalRmalloc := s.totalRmalloc - (s.elem u).realLen
      totalAlloc := s.totalAlloc - (s.elem u).realLen
      live := liveWithout s.live u } := by
  rw [gtm_free_main]
  dsimp only
  rw [Nat.add_sub_cancel, index, if_neg (by decide)]
  rfl

/-- Storage in use can be returned. -/
theorem gtm_free_main_spec (inv : s.Inv pieces []) {l : LiveStorage} (member : l ∈ s.live) :
    ∃ s' pieces', gtm_free_main (some (l.uStor + hdrSize)) s = some s' ∧ s'.Inv pieces' [] ∧
      TakenBack s pieces l s' := by
  rcases inv.lives.inUse l member with ⟨i, here, _, size⟩ | ⟨real, area, notExtent⟩
  · have inv₀ : (returned s l.uStor i).Inv pieces [l.uStor] :=
      inv.takeBack member here size rfl rfl rfl rfl rfl rfl rfl rfl
    have isFree : ((returned s l.uStor i).elem l.uStor).state = Free := by
      simp [returned]
    have same : SameExtents s (returned s l.uStor i) := by
      refine ⟨rfl, fun _ => rfl, fun _ => rfl, rfl, rfl, ?_⟩
      exact Storage.setElem_same s l.uStor (fun e => { e with state := Free }) StorElem.extHdrOffset
        fun _ => rfl
    obtain ⟨s₁, u, j, pieces₁, combined, ready⟩ :=
      @combineLoop_spec MAXINDEX _ pieces l.uStor i inv₀ here isFree (Nat.sub_le _ _)
    rw [gtm_free_main_small (inv.elements.index here), combined, Option.bind_some]
    dsimp only
    by_cases isMax : j = MAXINDEX
    · subst isMax
      rw [if_pos rfl]
      exact blockFreed_spec inv same rfl ready
    · rw [if_neg isMax]
      refine ⟨_, _, rfl, ready.queued isMax, ready.live, ?_⟩
      intro area held
      have areas : s₁.areas = s.areas := (same.trans ready.same).areas
      left
      rw [Storage.ENQUEUE_STOR_ELEM, areas]
      exact held
  · rw [gtm_free_main_real real, inv.lives.length l member]
    refine ⟨_, pieces, rfl, ?_, rfl, ?_⟩
    · exact inv.takeBackReal member area notExtent rfl rfl rfl rfl rfl rfl rfl rfl
    · intro held isHeld
      by_cases same : held = (l.uStor, l.realLen)
      · exact .inr (.inl same)
      · exact .inl ((List.mem_erase_of_ne same).mpr isHeld)

end Ydb
