import Ydb.SmallStorageMalloc

/-!
# Returning small storage

An element that is returned is in hand until it has been combined with its buddies
and is on a queue again. When the last block of an extent is free, the extent may
go back to the system.
-/

namespace Ydb

open Lib

variable {s : Storage} {pieces : Pieces}

/-! ## Storage that is taken back -/

/-- What is in use without the storage at an address. -/
def liveWithout (live : List LiveStorage) (u : Nat) : List LiveStorage :=
  live.filter fun l => l.uStor != u

theorem mem_liveWithout {live : List LiveStorage} {u : Nat} {l : LiveStorage} :
    l ∈ liveWithout live u ↔ l ∈ live ∧ l.uStor ≠ u := by
  rw [liveWithout, List.mem_filter, bne_iff_ne]

theorem liveWithout_sum {live : List LiveStorage} (different : (live.map LiveStorage.uStor).Nodup)
    {l : LiveStorage} (member : l ∈ live) :
    (live.map LiveStorage.realLen).sum =
      l.realLen + ((liveWithout live l.uStor).map LiveStorage.realLen).sum := by
  induction live with
  | nil => cases member
  | cons first rest ih =>
    rw [List.map_cons, List.nodup_cons] at different
    obtain ⟨absent, different⟩ := different
    rw [List.map_cons, List.sum_cons]
    rcases List.mem_cons.mp member with rfl | later
    · have unchanged : liveWithout (l :: rest) l.uStor = rest := by
        rw [liveWithout, List.filter_cons_of_neg (by simp), List.filter_eq_self]
        intro k isLater
        apply bne_iff_ne.mpr
        intro equal
        exact absent (List.mem_map.mpr ⟨k, isLater, equal⟩)
      rw [unchanged]
    · have other : first.uStor ≠ l.uStor := by
        intro equal
        exact absent (List.mem_map.mpr ⟨l, later, equal.symm⟩)
      have kept : liveWithout (first :: rest) l.uStor = first :: liveWithout rest l.uStor :=
        List.filter_cons_of_pos (bne_iff_ne.mpr other)
      rw [kept, List.map_cons, List.sum_cons, ih different later]
      omega

theorem liveWithout_nodup {live : List LiveStorage} (different : (live.map LiveStorage.uStor).Nodup)
    (u : Nat) : ((liveWithout live u).map LiveStorage.uStor).Nodup :=
  different.sublist (List.filter_sublist.map _)

/-- One storage in use less. -/
theorem Storage.Lives.without {hand : List Nat} (lives : s.Lives pieces []) {l : LiveStorage} (member : l ∈ s.live)
    {s' : Storage} (realLen : ∀ b, (s'.elem b).realLen = (s.elem b).realLen)
    (live : s'.live = liveWithout s.live l.uStor) (total : s'.totalAlloc = s.totalAlloc - l.realLen)
    (old : ∀ k ∈ s.live, k.uStor ≠ l.uStor → s'.InUse pieces hand k)
    (gone : ∀ {a i}, pieces a = some ⟨i, false⟩ → a ∉ hand → a ≠ l.uStor)
    (hand_inUse : ∀ a ∈ hand, ∃ i, pieces a = some ⟨i, false⟩) : s'.Lives pieces hand := by
  refine ⟨?_, ?_, ?_, ?_, ?_, ?_, hand_inUse⟩
  · intro k isLive
    rw [live, mem_liveWithout] at isLive
    exact old k isLive.1 isLive.2
  · intro k isLive
    rw [live, mem_liveWithout] at isLive
    rw [realLen]
    exact lives.length k isLive.1
  · intro k isLive
    rw [live, mem_liveWithout] at isLive
    exact lives.enough k isLive.1
  · rw [live]
    exact liveWithout_nodup lives.different _
  · rw [total, live, lives.total, liveWithout_sum lives.different member, Nat.add_sub_cancel_left]
  · intro a i found absent
    obtain ⟨k, isLive, equal⟩ := lives.all found List.not_mem_nil
    rw [live]
    refine ⟨k, mem_liveWithout.mpr ⟨isLive, ?_⟩, equal⟩
    rw [equal]
    exact gone found absent

/-- The element is in hand. -/
theorem Storage.Inv.takeBack {l : LiveStorage} {i : Nat} (inv : s.Inv pieces []) (member : l ∈ s.live)
    (here : pieces l.uStor = some ⟨i, false⟩) (length : l.realLen = TwoTable i) {s' : Storage}
    (elem : s'.elem = Function.update s.elem l.uStor { s.elem l.uStor with state := Free })
    (ext : s'.ext = s.ext) (queues : s'.freeStorElemQs = s.freeStorElemQs)
    (headers : s'.storExtHdrQ = s.storExtHdrQ) (areas : s'.areas = s.areas)
    (curExtents : s'.curExtents = s.curExtents) (live : s'.live = liveWithout s.live l.uStor)
    (total : s'.totalAlloc = s.totalAlloc - TwoTable i) : s'.Inv pieces [l.uStor] := by
  have other : ∀ {b}, b ≠ l.uStor → s'.elem b = s.elem b := by
    intro b different
    rw [elem, Function.update_of_ne different]
  have written : s'.elem l.uStor = { s.elem l.uStor with state := Free } := by
    rw [elem, Function.update_self]
  have field : ∀ {β : Type} (field : StorElem → β),
      (∀ e state, field { e with state := state } = field e) →
      ∀ b, field (s'.elem b) = field (s.elem b) := by
    intro β field keeps b
    by_cases isHere : b = l.uStor
    · rw [isHere, written, keeps]
    · rw [other isHere]
  have same : SameExtents s s' := by
    refine ⟨headers, ?_, ?_, areas, curExtents, field StorElem.extHdrOffset fun _ _ => rfl⟩
    · exact fun h => by rw [ext]
    · exact fun h => by rw [ext]
  refine ⟨?_, ?_, ?_, ?_⟩
  · rw [same.region]
    exact inv.partition
  · refine ⟨?_, ?_, ?_, ?_, ?_, inv.elements.alone⟩
    · rw [queues]
      exact inv.elements.queues
    · rw [queues]
      exact inv.elements.queue_nodup
    · intro b e found
      rw [field StorElem.queueIndex fun _ _ => rfl]
      exact inv.elements.index found
    · intro b j found
      by_cases isHere : b = l.uStor
      · rw [isHere, written]
      · rw [other isHere]
        exact inv.elements.free found
    · intro b j found absent
      rw [List.mem_singleton] at absent
      rw [other absent]
      exact inv.elements.inUse found List.not_mem_nil
  · apply inv.extents.congr_whole same
    · exact fun h => by rw [ext]
    · exact fun b => Iff.rfl
  · apply inv.lives.without member (field StorElem.realLen fun _ _ => rfl) live (length ▸ total)
    · intro k isLive different
      rcases inv.lives.inUse k isLive with ⟨j, found, _, length⟩ | ⟨real, area, notExtent⟩
      · exact .inl ⟨j, found, by simpa using different, length⟩
      · refine .inr ⟨?_, ?_, ?_⟩
        · rw [field StorElem.queueIndex fun _ _ => rfl]
          exact real
        · rw [areas]
          exact area
        · rw [headers, ext]
          exact notExtent
    · exact fun _ absent => fun same => absent (List.mem_singleton.mpr same)
    · intro b isHand
      rw [List.mem_singleton.mp isHand]
      exact ⟨i, here⟩

/-! ## Combining buddies -/

/-- The pieces after two buddies were combined; the result is in hand. -/
def combined (pieces : Pieces) (low i : Nat) : Pieces :=
  Function.update (Function.update pieces (low + 2 ^ (i + unit)) none) low (some ⟨i + 1, false⟩)

/-- The free elements after buddies were combined. -/
theorem combined_free {low i b j : Nat} :
    combined pieces low i b = some ⟨j, true⟩ ↔
      b ≠ low ∧ b ≠ low + 2 ^ (i + unit) ∧ pieces b = some ⟨j, true⟩ := by
  rw [combined]
  by_cases isLow : b = low
  · subst isLow
    simp
  · rw [Function.update_of_ne isLow]
    by_cases isHigh : b = low + 2 ^ (i + unit)
    · subst isHigh
      rw [Function.update_self]
      simp
    · rw [Function.update_of_ne isHigh]
      simp [isLow, isHigh]

theorem combined_of_ne {low i b : Nat} (notLow : b ≠ low) (notHigh : b ≠ low + 2 ^ (i + unit)) :
    combined pieces low i b = pieces b := by
  rw [combined, Function.update_of_ne notLow, Function.update_of_ne notHigh]

theorem combined_low {low i : Nat} : combined pieces low i low = some ⟨i + 1, false⟩ :=
  Function.update_self ..

theorem combined_high {low i : Nat} : combined pieces low i (low + 2 ^ (i + unit)) = none := by
  have positive := Nat.two_pow_pos (i + unit)
  rw [combined, Function.update_of_ne (by omega), Function.update_self]

/-- An element in hand and its buddy, which is free, become one element in hand. -/
theorem Storage.Inv.combine {u i low : Nat} (inv : s.Inv pieces [u])
    (here : pieces u = some ⟨i, false⟩)
    (buddyHere : pieces (buddy u (i + unit)) = some ⟨i, true⟩) (small : i < MAXINDEX)
    (lowAligned : 2 ^ (i + unit + 1) ∣ low)
    (halves : (low = u ∧ low + 2 ^ (i + unit) = buddy u (i + unit)) ∨
      (low = buddy u (i + unit) ∧ low + 2 ^ (i + unit) = u)) {s' : Storage}
    (elem : s'.elem = Function.update s.elem low { s.elem low with queueIndex := (i + 1 : Nat) })
    (ext : s'.ext = s.ext)
    (queues : s'.freeStorElemQs = fun idx => (s.freeStorElemQs idx).erase (buddy u (i + unit)))
    (headers : s'.storExtHdrQ = s.storExtHdrQ) (areas : s'.areas = s.areas)
    (curExtents : s'.curExtents = s.curExtents) (live : s'.live = s.live)
    (total : s'.totalAlloc = s.totalAlloc) : s'.Inv (combined pieces low i) [low] := by
  generalize buddyEq : buddy u (i + unit) = b at *
  generalize highEq : low + 2 ^ (i + unit) = high at *
  have either : ∀ c, c ≠ low → c ≠ high → c ≠ u ∧ c ≠ b := by
    intro c notLow notHigh
    rcases halves with ⟨rfl, rfl⟩ | ⟨rfl, rfl⟩
    · exact ⟨notLow, notHigh⟩
    · exact ⟨notHigh, notLow⟩
  have eitherBack : ∀ c, c ≠ u → c ≠ b → c ≠ low ∧ c ≠ high := by
    intro c notHere notBuddy
    rcases halves with ⟨rfl, rfl⟩ | ⟨rfl, rfl⟩
    · exact ⟨notHere, notBuddy⟩
    · exact ⟨notBuddy, notHere⟩
  have pieceLow : ∃ free, pieces low = some ⟨i, free⟩ := by
    rcases halves with ⟨rfl, rfl⟩ | ⟨rfl, rfl⟩
    · exact ⟨false, here⟩
    · exact ⟨true, buddyHere⟩
  have pieceHigh : ∃ free, pieces high = some ⟨i, free⟩ := by
    rcases halves with ⟨rfl, rfl⟩ | ⟨rfl, rfl⟩
    · exact ⟨true, buddyHere⟩
    · exact ⟨false, here⟩
  have free : ∀ {c j}, combined pieces low i c = some ⟨j, true⟩ ↔
      c ≠ low ∧ c ≠ high ∧ pieces c = some ⟨j, true⟩ := by
    intro c j
    rw [combined_free, highEq]
  have other : ∀ {c}, c ≠ low → s'.elem c = s.elem c := by
    intro c different
    rw [elem, Function.update_of_ne different]
  have written : s'.elem low = { s.elem low with queueIndex := (i + 1 : Nat) } := by
    rw [elem, Function.update_self]
  have field : ∀ {β : Type} (field : StorElem → β),
      (∀ e index, field { e with queueIndex := index } = field e) →
      ∀ c, field (s'.elem c) = field (s.elem c) := by
    intro β field keeps c
    by_cases isLow : c = low
    · rw [isLow, written, keeps]
    · rw [other isLow]
  have same : SameExtents s s' := by
    refine ⟨headers, ?_, ?_, areas, curExtents, field StorElem.extHdrOffset fun _ _ => rfl⟩
    · exact fun h => by rw [ext]
    · exact fun h => by rw [ext]
  have inUse : ∀ {c j}, combined pieces low i c = some ⟨j, false⟩ → c ≠ low →
      c ≠ u ∧ pieces c = some ⟨j, false⟩ := by
    intro c j found notLow
    have notHigh : c ≠ high := by
      rintro rfl
      rw [← highEq, combined_high] at found
      cases found
    rw [combined_of_ne notLow (by rw [highEq]; exact notHigh)] at found
    exact ⟨(either c notLow notHigh).1, found⟩
  refine ⟨?_, ?_, ?_, ?_⟩
  · obtain ⟨_, lowHere⟩ := pieceLow
    obtain ⟨_, highHere⟩ := pieceHigh
    rw [← highEq] at highHere
    rw [same.region]
    exact inv.partition.merge lowHere highHere small lowAligned false
  · refine ⟨?_, ?_, ?_, ?_, ?_, ?_⟩
    · intro j c
      rw [queues, free, (inv.elements.queue_nodup j).mem_erase_iff, inv.elements.queues]
      constructor
      · rintro ⟨notBuddy, found⟩
        have notHere : c ≠ u := by
          rintro rfl
          rw [here] at found
          cases found
        exact ⟨(eitherBack c notHere notBuddy).1, (eitherBack c notHere notBuddy).2, found⟩
      · rintro ⟨notLow, notHigh, found⟩
        exact ⟨(either c notLow notHigh).2, found⟩
    · intro j
      rw [queues]
      exact (inv.elements.queue_nodup j).erase b
    · intro c e found
      by_cases isLow : c = low
      · rw [isLow, combined_low] at found
        rw [isLow, written, ← Option.some.inj found]
      · by_cases isHigh : c = high
        · rw [isHigh, ← highEq, combined_high] at found
          cases found
        · rw [combined_of_ne isLow (by rw [highEq]; exact isHigh)] at found
          rw [other isLow]
          exact inv.elements.index found
    · intro c j found
      obtain ⟨notLow, _, found⟩ := free.mp found
      rw [other notLow]
      exact inv.elements.free found
    · intro c j found absent
      rw [List.mem_singleton] at absent
      obtain ⟨notHere, found⟩ := inUse found absent
      rw [other absent]
      exact inv.elements.inUse found (by simpa using notHere)
    · intro c j found below both
      exact inv.elements.alone (free.mp found).2.2 below (free.mp both).2.2
  · apply inv.extents.congr_whole same
    · exact fun h => by rw [ext]
    · intro c
      rw [free]
      constructor
      · exact fun found => found.2.2
      · intro found
        refine ⟨?_, ?_, found⟩
        · rintro rfl
          obtain ⟨_, lowHere⟩ := pieceLow
          rw [lowHere] at found
          have equal : i = MAXINDEX := congrArg Piece.index (Option.some.inj found)
          omega
        · rintro rfl
          obtain ⟨_, highHere⟩ := pieceHigh
          rw [highHere] at found
          have equal : i = MAXINDEX := congrArg Piece.index (Option.some.inj found)
          omega
  · have notThere : ∀ l ∈ s.live, l.uStor ≠ low ∧ l.uStor ≠ high := by
      intro l member
      apply eitherBack
      · apply inv.live_ne member (inv.region_of_piece here)
        intro _ _
        exact List.mem_singleton_self u
      · apply inv.live_ne member (inv.region_of_piece buddyHere)
        intro j found
        rw [buddyHere] at found
        cases found
    apply inv.lives.congr same live total
    · intro l member real
      rw [other (notThere l member).1]
      exact real
    · intro l _
      exact field StorElem.realLen (fun _ _ => rfl) l.uStor
    · intro l member j found _
      rw [combined_of_ne (notThere l member).1 (by rw [highEq]; exact (notThere l member).2)]
      exact ⟨found, by simpa using (notThere l member).1⟩
    · intro c j found absent
      rw [List.mem_singleton] at absent
      obtain ⟨notHere, found⟩ := inUse found absent
      exact ⟨j, found, by simpa using notHere⟩
    · intro c member
      rw [List.mem_singleton.mp member, combined_low]
      exact ⟨i + 1, rfl⟩

/-- An element in hand that cannot be combined with its buddy. -/
structure ReadyToQueue (s : Storage) (s' : Storage) (u i : Nat) (pieces : Pieces) : Prop where
  inv : s'.Inv pieces [u]
  here : pieces u = some ⟨i, false⟩
  isFree : (s'.elem u).state = Free
  alone : i < MAXINDEX → pieces (buddy u (i + unit)) ≠ some ⟨i, true⟩
  same : SameExtents s s'
  live : s'.live = s.live

/-- Buddies are combined as long as they can be. -/
theorem combineLoop_spec {rounds : Nat} : ∀ {s : Storage} {pieces : Pieces} {u i : Nat},
    s.Inv pieces [u] → pieces u = some ⟨i, false⟩ → (s.elem u).state = Free → MAXINDEX - i ≤ rounds →
    ∃ s' u' i' pieces', combineLoop rounds i u s = some (s', u', i') ∧ ReadyToQueue s s' u' i' pieces' := by
  induction rounds with
  | zero =>
    intro s pieces u i inv here isFree enough
    refine ⟨s, u, i, pieces, rfl, inv, here, isFree, ?_, .refl s, rfl⟩
    intro small
    omega
  | succ rounds ih =>
    intro s pieces u i inv here isFree enough
    rw [combineLoop]
    by_cases small : i < MAXINDEX
    · have size : TwoTable i = 2 ^ (i + unit) := TwoTable_eq (Nat.le_of_lt small)
      have aligned : 2 ^ (i + unit) ∣ u := inv.partition.piece_aligned here
      have buddyEq : u ^^^ TwoTable i = buddy u (i + unit) := by rw [size, buddy]
      have buddyNe := buddy_ne aligned
      rw [if_pos small]
      dsimp only
      rw [buddyEq]
      by_cases stop : (s.elem (buddy u (i + unit))).state = Allocated ∨
          (s.elem (buddy u (i + unit))).queueIndex ≠ i
      · rw [if_pos stop]
        refine ⟨s, u, i, pieces, rfl, inv, here, isFree, ?_, .refl s, rfl⟩
        intro _ buddyHere
        rcases stop with allocated | index
        · rw [inv.elements.free buddyHere] at allocated
          cases allocated
        · exact index (inv.elements.index buddyHere)
      · rw [if_neg stop]
        rw [not_or, not_not] at stop
        have buddyHere : pieces (buddy u (i + unit)) = some ⟨i, true⟩ := by
          obtain ⟨⟨j, free⟩, found, _⟩ := inv.partition.piece_at_buddy here small
          have index := inv.elements.index found
          obtain rfl : j = i := by
            rw [stop.2] at index
            exact (Int.ofNat.inj index).symm
          cases free with
          | true => exact found
          | false => exact absurd (inv.elements.inUse found (by simpa using buddyNe)) stop.1
        have queued := (inv.elements.queues i _).mpr buddyHere
        rw [DEQUEUE_STOR_ELEM_eq (Nat.le_of_lt small) queued, Option.bind_eq_bind, Option.bind_some]
        have freeBuddy := inv.elements.free buddyHere
        -- The lower one of the two keeps its header.
        obtain ⟨low, lowEq, lowAligned, halves⟩ : ∃ low,
            (if buddy u (i + unit) < u then buddy u (i + unit) else u) = low ∧
            2 ^ (i + unit + 1) ∣ low ∧
            ((low = u ∧ low + 2 ^ (i + unit) = buddy u (i + unit)) ∨
              (low = buddy u (i + unit) ∧ low + 2 ^ (i + unit) = u)) := by
          rcases buddy_cases aligned with ⟨lower, above⟩ | ⟨lower, below⟩
          · exact ⟨u, if_neg (by omega), lower, .inl ⟨rfl, above.symm⟩⟩
          · exact ⟨buddy u (i + unit), if_pos (by omega), lower, .inr ⟨rfl, below.symm⟩⟩
        rw [lowEq]
        generalize resultEq : Storage.setElem
          { s with freeStorElemQs := fun idx => (s.freeStorElemQs idx).erase (buddy u (i + unit)) } low
          (fun e => { e with queueIndex := (i + 1 : Nat) }) = t
        have combinedInv : t.Inv (combined pieces low i) [low] := by
          subst resultEq
          exact inv.combine here buddyHere small lowAligned halves rfl rfl rfl rfl rfl rfl rfl rfl
        have elem : t.elem = Function.update s.elem low
            { s.elem low with queueIndex := (i + 1 : Nat) } := by
          subst resultEq
          rfl
        have lowFree : (t.elem low).state = Free := by
          rw [elem, Function.update_self]
          rcases halves with ⟨rfl, _⟩ | ⟨rfl, _⟩
          · exact isFree
          · exact freeBuddy
        have same : SameExtents s t := by
          subst resultEq
          refine ⟨rfl, fun _ => rfl, fun _ => rfl, rfl, rfl, ?_⟩
          exact Storage.setElem_same _ low _ StorElem.extHdrOffset fun _ => rfl
        have live : t.live = s.live := by
          subst resultEq
          rfl
        obtain ⟨s', u', i', pieces', result, ready⟩ :=
          ih combinedInv combined_low lowFree (by omega)
        exact ⟨s', u', i', pieces', result, ready.inv, ready.here, ready.isFree, ready.alone,
          same.trans ready.same, ready.live.trans live⟩
    · rw [if_neg small]
      exact ⟨s, u, i, pieces, rfl, inv, here, isFree, fun less => absurd less small, .refl s, rfl⟩

/-! ## Back on the queue -/

section Queueing

variable {s' : Storage} {u i : Nat}

/-- The queues take the element. -/
theorem ReadyToQueue.elements (ready : ReadyToQueue s s' u i pieces) {t : Storage}
    (elem : t.elem = s'.elem)
    (queues : t.freeStorElemQs = Function.update s'.freeStorElemQs i (u :: s'.freeStorElemQs i)) :
    t.Elements (Function.update pieces u (some ⟨i, true⟩)) [] := by
  have elements := ready.inv.elements
  have cases' : ∀ {b j}, Function.update pieces u (some ⟨i, true⟩) b = some ⟨j, true⟩ →
      (b = u ∧ j = i) ∨ (b ≠ u ∧ pieces b = some ⟨j, true⟩) := by
    intro b j found
    by_cases isHere : b = u
    · rw [isHere, Function.update_self] at found
      exact .inl ⟨isHere, (congrArg Piece.index (Option.some.inj found)).symm⟩
    · rw [Function.update_of_ne isHere] at found
      exact .inr ⟨isHere, found⟩
  have old : ∀ {b j}, pieces b = some ⟨j, true⟩ →
      b ≠ u ∧ Function.update pieces u (some ⟨i, true⟩) b = some ⟨j, true⟩ := by
    intro b j found
    have different : b ≠ u := by
      rintro rfl
      rw [ready.here] at found
      cases found
    exact ⟨different, by rw [Function.update_of_ne different]; exact found⟩
  refine ⟨?_, ?_, ?_, ?_, ?_, ?_⟩
  · intro j b
    rw [queues]
    by_cases same : j = i
    · subst same
      rw [Function.update_self, List.mem_cons, elements.queues]
      constructor
      · rintro (rfl | found)
        · exact Function.update_self ..
        · exact (old found).2
      · intro found
        rcases cases' found with ⟨isHere, _⟩ | ⟨_, found⟩
        · exact .inl isHere
        · exact .inr found
    · rw [Function.update_of_ne same, elements.queues]
      constructor
      · exact fun found => (old found).2
      · intro found
        rcases cases' found with ⟨_, equal⟩ | ⟨_, found⟩
        · exact absurd equal same
        · exact found
  · intro j
    rw [queues]
    by_cases same : j = i
    · subst same
      rw [Function.update_self]
      refine List.nodup_cons.mpr ⟨?_, elements.queue_nodup j⟩
      intro member
      exact (old ((elements.queues j u).mp member)).1 rfl
    · rw [Function.update_of_ne same]
      exact elements.queue_nodup j
  · intro b e found
    rw [elem]
    by_cases isHere : b = u
    · rw [isHere, Function.update_self] at found
      rw [isHere, ← Option.some.inj found, elements.index ready.here]
    · rw [Function.update_of_ne isHere] at found
      exact elements.index found
  · intro b j found
    rw [elem]
    rcases cases' found with ⟨rfl, _⟩ | ⟨_, found⟩
    · exact ready.isFree
    · exact elements.free found
  · intro b j found _
    have different : b ≠ u := by
      rintro rfl
      rw [Function.update_self] at found
      cases found
    rw [Function.update_of_ne different] at found
    rw [elem]
    exact elements.inUse found (by simpa using different)
  · intro b j found below both
    rcases cases' found with ⟨rfl, rfl⟩ | ⟨_, isFree⟩
    · rcases cases' both with ⟨equal, _⟩ | ⟨_, both⟩
      · exact buddy_ne (ready.inv.partition.piece_aligned ready.here) equal
      · exact ready.alone below both
    · rcases cases' both with ⟨equal, rfl⟩ | ⟨_, both⟩
      · apply ready.alone below
        rw [← equal, buddy_buddy]
        exact isFree
      · exact elements.alone isFree below both

theorem ReadyToQueue.lives (ready : ReadyToQueue s s' u i pieces) {t : Storage}
    (same : SameExtents s' t) (elem : t.elem = s'.elem) (live : t.live = s'.live)
    (total : t.totalAlloc = s'.totalAlloc) :
    t.Lives (Function.update pieces u (some ⟨i, true⟩)) [] := by
  apply ready.inv.lives.congr same live total
  · intro l _ real
    rw [elem]
    exact real
  · intro l _
    rw [elem]
  · intro l _ j found absent
    rw [List.mem_singleton] at absent
    rw [Function.update_of_ne absent]
    exact ⟨found, List.not_mem_nil⟩
  · intro b j found _
    have different : b ≠ u := by
      rintro rfl
      rw [Function.update_self] at found
      cases found
    rw [Function.update_of_ne different] at found
    exact ⟨j, found, by simpa using different⟩
  · intro b member
    exact absurd member List.not_mem_nil

/-- An element that is not a whole block is on its queue. -/
theorem ReadyToQueue.queued (ready : ReadyToQueue s s' u i pieces) (small : i ≠ MAXINDEX) :
    (s'.ENQUEUE_STOR_ELEM i u).Inv (Function.update pieces u (some ⟨i, true⟩)) [] := by
  have same : SameExtents s' (s'.ENQUEUE_STOR_ELEM i u) :=
    ⟨rfl, fun _ => rfl, fun _ => rfl, rfl, rfl, fun _ => rfl⟩
  refine ⟨?_, ready.elements rfl rfl, ?_, ready.lives same rfl rfl rfl⟩
  · rw [same.region]
    exact ready.inv.partition.setFree ready.here true
  · apply ready.inv.extents.congr_whole same fun _ => rfl
    intro b
    by_cases isHere : b = u
    · rw [isHere, Function.update_self, ready.here]
      simp [small]
    · rw [Function.update_of_ne isHere]

/-- A whole block is on its queue, and is not counted as in use. -/
theorem ReadyToQueue.blockQueued (ready : ReadyToQueue s s' u MAXINDEX pieces) :
    ∃ h ∈ s'.storExtHdrQ, u + (s'.elem u).extHdrOffset = h ∧
      ((s'.ENQUEUE_STOR_ELEM MAXINDEX u).setExt h fun e =>
        { e with elemsAllocd := e.elemsAllocd - 1 }).Inv
        (Function.update pieces u (some ⟨MAXINDEX, true⟩)) [] := by
  have inv := ready.inv
  obtain ⟨h, member, isBlock, header⟩ := inv.extent_of_block ready.here
  refine ⟨h, member, header, ?_⟩
  have same : SameExtents s' ((s'.ENQUEUE_STOR_ELEM MAXINDEX u).setExt h fun e =>
      { e with elemsAllocd := e.elemsAllocd - 1 }) := by
    refine ⟨rfl, ?_, ?_, rfl, rfl, fun _ => rfl⟩
    · exact Storage.setExt_same _ h _ StorExtHdr.extentStart fun _ => rfl
    · exact Storage.setExt_same _ h _ StorExtHdr.elemStart fun _ => rfl
  refine ⟨?_, ready.elements rfl rfl, ?_, ready.lives same rfl rfl rfl⟩
  · rw [same.region]
    exact inv.partition.setFree ready.here true
  · apply inv.extents.congr same
    intro h' member'
    by_cases equal : h' = h
    · subst equal
      have counted := inv.extents.allocd h' member'
      have oneMore := @blocksInUse_succ (Function.update pieces u (some ⟨MAXINDEX, true⟩)) pieces
        _ _ _ isBlock (Function.update_self ..) (by rw [ready.here]; simp)
        (fun c _ other => (Function.update_of_ne other ..).symm)
      rw [oneMore, Nat.cast_succ] at counted
      rw [Storage.setExt_self]
      show (s'.ext h').elemsAllocd - 1 = _
      omega
    · rw [Storage.setExt_of_ne _ _ _ equal, blocksInUse_congr, ← inv.extents.allocd h' member']
      · rfl
      · intro b isBlock'
        have ok := inv.extents.ok h member
        have ok' := inv.extents.ok h' member'
        have different : b ≠ u := by
          rintro rfl
          exact equal (inv.extents.unique member' member
            ((mem_blocksFrom ok'.start_aligned ok'.aligned).mp isBlock').2
            ((mem_blocksFrom ok.start_aligned ok.aligned).mp isBlock).2)
        rw [Function.update_of_ne different]

end Queueing

end Ydb
