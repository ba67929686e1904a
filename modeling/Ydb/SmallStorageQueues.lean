import Ydb.SmallStorageElements

/-!
# Taking and splitting elements

An element is taken from a queue, or is the first half of a larger one, the second
half of which is put on a queue.
-/

namespace Ydb

open Lib

variable {s : Storage} {pieces : Pieces}

/-! ## Headers -/

namespace Storage

variable (s : Storage) (a : Nat) (f : StorElem → StorElem)

theorem setElem_self : (s.setElem a f).elem a = f (s.elem a) := Function.update_self ..

theorem setElem_of_ne {b : Nat} (other : b ≠ a) : (s.setElem a f).elem b = s.elem b :=
  Function.update_of_ne other ..

/-- A field that is not assigned to. -/
theorem setElem_same {β : Type} (field : StorElem → β) (keeps : ∀ e, field (f e) = field e) (b : Nat) :
    field ((s.setElem a f).elem b) = field (s.elem b) := by
  by_cases here : b = a
  · rw [here, setElem_self, keeps]
  · rw [setElem_of_ne _ _ _ here]

theorem ENQUEUE_elem (i v : Nat) : (s.ENQUEUE_STOR_ELEM i v).elem = s.elem := rfl

variable (g : StorExtHdr → StorExtHdr)

theorem setExt_self : (s.setExt a g).ext a = g (s.ext a) := Function.update_self ..

theorem setExt_of_ne {h : Nat} (other : h ≠ a) : (s.setExt a g).ext h = s.ext h :=
  Function.update_of_ne other ..

theorem setExt_same {β : Type} (field : StorExtHdr → β) (keeps : ∀ e, field (g e) = field e) (h : Nat) :
    field ((s.setExt a g).ext h) = field (s.ext h) := by
  by_cases here : h = a
  · rw [here, setExt_self, keeps]
  · rw [setExt_of_ne _ _ _ here]

end Storage

/-! ## Taking an element from its queue -/

theorem DEQUEUE_STOR_ELEM_eq {i a : Nat} (small : i ≤ MAXINDEX) (queued : a ∈ s.freeStorElemQs i) :
    s.DEQUEUE_STOR_ELEM a =
      some { s with freeStorElemQs := fun idx => (s.freeStorElemQs idx).erase a } := by
  rw [Storage.DEQUEUE_STOR_ELEM, if_pos]
  rw [List.any_eq_true]
  exact ⟨i, List.mem_range.mpr (Nat.lt_succ_of_le small), List.contains_iff_mem.mpr queued⟩

/-- The element is in hand, and what is counted as in use is the same. -/
theorem Storage.Elements.take {hand : List Nat} (elements : s.Elements pieces hand) {i a : Nat}
    (here : pieces a = some ⟨i, true⟩) {s' : Storage} (elem : s'.elem = s.elem)
    (queues : s'.freeStorElemQs = fun idx => (s.freeStorElemQs idx).erase a) :
    s'.Elements (Function.update pieces a (some ⟨i, false⟩)) (a :: hand) := by
  have old : ∀ {b j}, Function.update pieces a (some ⟨i, false⟩) b = some ⟨j, true⟩ →
      b ≠ a ∧ pieces b = some ⟨j, true⟩ := by
    intro b j found
    by_cases same : b = a
    · subst same
      rw [Function.update_self] at found
      cases found
    · rw [Function.update_of_ne same] at found
      exact ⟨same, found⟩
  refine ⟨?_, ?_, ?_, ?_, ?_, ?_⟩
  · intro j b
    rw [queues]
    constructor
    · intro member
      have different : b ≠ a := by
        rintro rfl
        exact (elements.queue_nodup j).not_mem_erase member
      rw [Function.update_of_ne different]
      exact (elements.queues j b).mp (List.mem_of_mem_erase member)
    · intro found
      obtain ⟨different, found⟩ := old found
      exact (List.mem_erase_of_ne different).mpr ((elements.queues j b).mpr found)
  · intro j
    rw [queues]
    exact (elements.queue_nodup j).erase a
  · intro b e found
    rw [elem]
    by_cases same : b = a
    · subst same
      rw [Function.update_self] at found
      obtain rfl := Option.some.inj found
      exact elements.index (e := ⟨i, true⟩) here
    · rw [Function.update_of_ne same] at found
      exact elements.index found
  · intro b j found
    rw [elem]
    exact elements.free (old found).2
  · intro b j found absent
    rw [List.mem_cons, not_or] at absent
    rw [Function.update_of_ne absent.1] at found
    rw [elem]
    exact elements.inUse found absent.2
  · intro b j found small bothFree
    exact elements.alone (old found).2 small (old bothFree).2

/-- An element leaves its queue. -/
theorem Storage.Lives.take (lives : s.Lives pieces []) {i a : Nat}
    (here : pieces a = some ⟨i, true⟩) {s' : Storage} (same : SameExtents s s')
    (elem : s'.elem = s.elem) (live : s'.live = s.live) (total : s'.totalAlloc = s.totalAlloc) :
    s'.Lives (Function.update pieces a (some ⟨i, false⟩)) [a] := by
  apply lives.congr same live total
  · intro l _ real
    rw [elem]
    exact real
  · intro l _
    rw [elem]
  · intro l _ j found _
    have different : l.uStor ≠ a := by
      intro equal
      rw [equal, here] at found
      cases found
    exact ⟨by rw [Function.update_of_ne different]; exact found, by simpa using different⟩
  · intro b j found absent
    rw [List.mem_singleton] at absent
    rw [Function.update_of_ne absent] at found
    exact ⟨j, found, List.not_mem_nil⟩
  · intro b member
    rw [List.mem_singleton.mp member]
    exact ⟨i, Function.update_self ..⟩

/-- The first element of a queue is taken. -/
theorem GET_QUEUED_ELEMENT_queued (inv : s.Inv pieces []) {i u : Nat} {rest : List Nat}
    (queue : s.freeStorElemQs i = u :: rest) (find : Storage → Option (Storage × Nat)) :
    ∃ s', GET_QUEUED_ELEMENT find i s = some (s', u) ∧
      s'.Inv (Function.update pieces u (some ⟨i, false⟩)) [u] ∧
      s'.live = s.live ∧ s'.totalAlloc = s.totalAlloc := by
  have queued : u ∈ s.freeStorElemQs i := by
    rw [queue]
    exact List.mem_cons_self
  have here := (inv.elements.queues i u).mp queued
  have small : i ≤ MAXINDEX := inv.partition.piece_index_le here
  have partition := inv.partition.setFree here false
  rw [GET_QUEUED_ELEMENT, queue]
  dsimp only
  rw [DEQUEUE_STOR_ELEM_eq small queued, Option.bind_eq_bind, Option.bind_some]
  by_cases whole : i = MAXINDEX
  · subst whole
    rw [if_pos rfl]
    obtain ⟨h, member, isBlock, header⟩ := inv.extent_of_block here
    dsimp only
    rw [header]
    refine ⟨_, rfl, ?_, rfl, rfl⟩
    have same : SameExtents s (Storage.setExt
        { s with freeStorElemQs := fun idx => (s.freeStorElemQs idx).erase u } h
        fun e => { e with elemsAllocd := e.elemsAllocd + 1 }) := by
      refine ⟨rfl, ?_, ?_, rfl, rfl, fun _ => rfl⟩
      · exact Storage.setExt_same _ h _ StorExtHdr.extentStart fun _ => rfl
      · exact Storage.setExt_same _ h _ StorExtHdr.elemStart fun _ => rfl
    refine ⟨?_, inv.elements.take here rfl rfl, ?_, inv.lives.take here same rfl rfl rfl⟩
    · rw [same.region]
      exact partition
    · apply inv.extents.congr same
      intro h' member'
      by_cases equal : h' = h
      · subst equal
        have counted := inv.extents.allocd h' member'
        rw [blocksInUse_succ isBlock here (by rw [Function.update_self]; decide)
          (fun c _ other => Function.update_of_ne other ..)]
        rw [Nat.cast_succ, ← counted, Storage.setExt_self]
      · rw [Storage.setExt_of_ne _ _ _ equal, blocksInUse_congr, ← inv.extents.allocd h' member']
        · intro b isBlock'
          have ok := inv.extents.ok h member
          have ok' := inv.extents.ok h' member'
          have different : b ≠ u := by
            rintro rfl
            exact equal (inv.extents.unique member' member
              ((mem_blocksFrom ok'.start_aligned ok'.aligned).mp isBlock').2
              ((mem_blocksFrom ok.start_aligned ok.aligned).mp isBlock).2)
          rw [Function.update_of_ne different]
  · rw [if_neg whole]
    have same : SameExtents s { s with freeStorElemQs := fun idx => (s.freeStorElemQs idx).erase u } :=
      ⟨rfl, fun _ => rfl, fun _ => rfl, rfl, rfl, fun _ => rfl⟩
    refine ⟨_, rfl, ⟨?_, inv.elements.take here rfl rfl, ?_, inv.lives.take here same rfl rfl rfl⟩,
      rfl, rfl⟩
    · rw [same.region]
      exact partition
    · apply inv.extents.congr_whole same fun _ => rfl
      intro b
      by_cases equal : b = u
      · subst equal
        rw [Function.update_self, here]
        simp [whole]
      · rw [Function.update_of_ne equal]

/-! ## Splitting -/

/-- A split in two. -/
theorem Storage.Elements.split {u i : Nat} (elements : s.Elements pieces [u])
    (here : pieces u = some ⟨i + 1, false⟩) (upper : pieces (u + 2 ^ (i + unit)) = none)
    (small : i < MAXINDEX) (lower : buddy u (i + unit) = u + 2 ^ (i + unit)) {s' : Storage}
    (elemUpper : (s'.elem (u + 2 ^ (i + unit))).queueIndex = i ∧
      (s'.elem (u + 2 ^ (i + unit))).state = Free)
    (elemLower : (s'.elem u).queueIndex = i)
    (elem : ∀ b, b ≠ u → b ≠ u + 2 ^ (i + unit) → s'.elem b = s.elem b)
    (queues : s'.freeStorElemQs = Function.update s.freeStorElemQs i
      ((u + 2 ^ (i + unit)) :: s.freeStorElemQs i)) :
    s'.Elements (Function.update (Function.update pieces u (some ⟨i, false⟩))
      (u + 2 ^ (i + unit)) (some ⟨i, true⟩)) [u] := by
  have positive := Nat.two_pow_pos (i + unit)
  generalize upperEq : u + 2 ^ (i + unit) = v at *
  have uNe : u ≠ v := by omega
  have freeCases : ∀ {b j}, Function.update (Function.update pieces u (some ⟨i, false⟩)) v
      (some ⟨i, true⟩) b = some ⟨j, true⟩ → (b = v ∧ j = i) ∨
        (b ≠ v ∧ b ≠ u ∧ pieces b = some ⟨j, true⟩) := by
    intro b j found
    by_cases isUpper : b = v
    · subst isUpper
      rw [Function.update_self] at found
      cases found
      exact .inl ⟨rfl, rfl⟩
    · rw [Function.update_of_ne isUpper] at found
      by_cases isLower : b = u
      · subst isLower
        rw [Function.update_self] at found
        cases found
      · rw [Function.update_of_ne isLower] at found
        exact .inr ⟨isUpper, isLower, found⟩
  have freeOld : ∀ {b j}, pieces b = some ⟨j, true⟩ → Function.update
      (Function.update pieces u (some ⟨i, false⟩)) v (some ⟨i, true⟩) b = some ⟨j, true⟩ := by
    intro b j found
    have notUpper : b ≠ v := by
      rintro rfl
      rw [upper] at found
      cases found
    have notLower : b ≠ u := by
      rintro rfl
      rw [here] at found
      cases found
    rw [Function.update_of_ne notUpper, Function.update_of_ne notLower]
    exact found
  refine ⟨?_, ?_, ?_, ?_, ?_, ?_⟩
  · intro j b
    rw [queues]
    by_cases same : j = i
    · subst same
      rw [Function.update_self, List.mem_cons]
      constructor
      · rintro (rfl | old)
        · exact Function.update_self ..
        · exact freeOld ((elements.queues j b).mp old)
      · intro found
        rcases freeCases found with ⟨rfl, _⟩ | ⟨_, _, old⟩
        · exact .inl rfl
        · exact .inr ((elements.queues j b).mpr old)
    · rw [Function.update_of_ne same]
      constructor
      · intro old
        exact freeOld ((elements.queues j b).mp old)
      · intro found
        rcases freeCases found with ⟨_, equal⟩ | ⟨_, _, old⟩
        · exact absurd equal same
        · exact (elements.queues j b).mpr old
  · intro j
    rw [queues]
    by_cases same : j = i
    · subst same
      rw [Function.update_self]
      refine List.nodup_cons.mpr ⟨?_, elements.queue_nodup j⟩
      intro member
      have found := (elements.queues j v).mp member
      rw [upper] at found
      cases found
    · rw [Function.update_of_ne same]
      exact elements.queue_nodup j
  · intro b e found
    by_cases isUpper : b = v
    · subst isUpper
      rw [Function.update_self] at found
      obtain rfl := Option.some.inj found
      exact elemUpper.1
    · rw [Function.update_of_ne isUpper] at found
      by_cases isLower : b = u
      · subst isLower
        rw [Function.update_self] at found
        obtain rfl := Option.some.inj found
        exact elemLower
      · rw [Function.update_of_ne isLower] at found
        rw [elem b isLower isUpper]
        exact elements.index found
  · intro b j found
    rcases freeCases found with ⟨rfl, _⟩ | ⟨notUpper, notLower, old⟩
    · exact elemUpper.2
    · rw [elem b notLower notUpper]
      exact elements.free old
  · intro b j found absent
    rw [List.mem_singleton] at absent
    have notUpper : b ≠ v := by
      rintro rfl
      rw [Function.update_self] at found
      cases found
    rw [Function.update_of_ne notUpper, Function.update_of_ne absent] at found
    rw [elem b absent notUpper]
    exact elements.inUse found (by simpa using absent)
  · intro b j found below both
    rcases freeCases found with ⟨rfl, rfl⟩ | ⟨notUpper, notLower, old⟩
    · -- The buddy of the second half is the first half.
      have back : buddy b (j + unit) = u := by rw [← lower, buddy_buddy]
      rw [back] at both
      rcases freeCases both with ⟨equal, _⟩ | ⟨_, notLower, _⟩
      · exact uNe equal
      · exact notLower rfl
    · rcases freeCases both with ⟨equal, rfl⟩ | ⟨_, _, old'⟩
      · apply notLower
        rw [← buddy_buddy b (j + unit), equal, ← lower, buddy_buddy]
      · exact elements.alone old below old'

/-- Splits down to the size. -/
theorem splitElem_spec {u i : Nat} (inv : s.Inv pieces [u])
    (here : pieces u = some ⟨i + 1, false⟩) :
    (splitElem i u s).Inv (Function.update (Function.update pieces u (some ⟨i, false⟩))
      (u + 2 ^ (i + unit)) (some ⟨i, true⟩)) [u] ∧
    (splitElem i u s).live = s.live ∧ (splitElem i u s).totalAlloc = s.totalAlloc := by
  have positive := Nat.two_pow_pos (i + unit)
  have small : i + 1 ≤ MAXINDEX := inv.partition.piece_index_le here
  have double : 2 ^ (i + 1 + unit) = 2 ^ (i + unit) + 2 ^ (i + unit) := by
    rw [Nat.add_right_comm, Nat.pow_succ, Nat.mul_two]
  have lower : buddy u (i + unit) = u + 2 ^ (i + unit) := by
    apply buddy_lower
    rw [Nat.add_right_comm]
    exact inv.partition.piece_aligned here
  have after : u < u + 2 ^ (i + unit) := by omega
  have before : u + 2 ^ (i + unit) < u + 2 ^ (i + 1 + unit) := by omega
  have upper : pieces (u + 2 ^ (i + unit)) = none := inv.partition.none_inside here after before
  have size : TwoTable i = 2 ^ (i + unit) := TwoTable_eq (by omega)
  have inRegion : s.region (u + 2 ^ (i + unit)) :=
    inv.partition.inside (covers_of here (Nat.le_of_lt after) before)
  rw [splitElem, size]
  generalize upperEq : u + 2 ^ (i + unit) = v at *
  have uNe : u ≠ v := by omega
  generalize resultEq : ((s.setElem v fun e => { e with state := Free, queueIndex := i }).ENQUEUE_STOR_ELEM
    i v).setElem u (fun e => { e with queueIndex := i }) = s'
  have elem : ∀ b, b ≠ u → b ≠ v → s'.elem b = s.elem b := by
    intro b notLower notUpper
    rw [← resultEq, Storage.setElem_of_ne _ _ _ notLower, Storage.ENQUEUE_elem,
      Storage.setElem_of_ne _ _ _ notUpper]
  have field : ∀ {β : Type} (field : StorElem → β),
      (∀ e state index, field { e with state := state, queueIndex := index } = field e) →
      ∀ b, field (s'.elem b) = field (s.elem b) := by
    intro β field keeps b
    rw [← resultEq, Storage.setElem_same _ u _ field fun e => keeps e e.state i]
    exact Storage.setElem_same s v _ field (fun e => keeps e Free i) b
  have same : SameExtents s s' := by
    refine ⟨?_, ?_, ?_, ?_, ?_, ?_⟩
    · rw [← resultEq]
      rfl
    · intro h
      rw [← resultEq]
      rfl
    · intro h
      rw [← resultEq]
      rfl
    · rw [← resultEq]
      rfl
    · rw [← resultEq]
      rfl
    · exact field StorElem.extHdrOffset fun _ _ _ => rfl
  refine ⟨⟨?_, ?_, ?_, ?_⟩, by rw [← resultEq]; rfl, by rw [← resultEq]; rfl⟩
  · rw [same.region, ← upperEq]
    exact inv.partition.split here false true
  · subst upperEq
    apply inv.elements.split here upper (by omega) lower
    · rw [← resultEq, Storage.setElem_of_ne _ _ _ uNe.symm]
      have written := Storage.setElem_self s (u + 2 ^ (i + unit)) fun e =>
        { e with state := Free, queueIndex := i }
      exact ⟨congrArg StorElem.queueIndex written, congrArg StorElem.state written⟩
    · rw [← resultEq, Storage.setElem_self]
    · exact elem
    · rw [← resultEq]
      rfl
  · apply inv.extents.congr_whole same
    · intro h
      rw [← resultEq]
      rfl
    · intro b
      by_cases isUpper : b = v
      · subst isUpper
        rw [Function.update_self, upper]
        simp
        omega
      · rw [Function.update_of_ne isUpper]
        by_cases isLower : b = u
        · subst isLower
          rw [Function.update_self, here]
          simp
        · rw [Function.update_of_ne isLower]
  · have notThere : ∀ l ∈ s.live, l.uStor ≠ u ∧ l.uStor ≠ v := by
      intro l member
      constructor
      · apply inv.live_ne member (inv.region_of_piece here)
        intro _ _
        exact List.mem_singleton_self u
      · apply inv.live_ne member inRegion
        intro j found
        rw [upper] at found
        cases found
    apply inv.lives.congr same
    · rw [← resultEq]
      rfl
    · rw [← resultEq]
      rfl
    · intro l member real
      rw [elem l.uStor (notThere l member).1 (notThere l member).2]
      exact real
    · intro l _
      exact field StorElem.realLen (fun _ _ _ => rfl) l.uStor
    · intro l member j found absent
      rw [Function.update_of_ne (notThere l member).2, Function.update_of_ne (notThere l member).1]
      exact ⟨found, absent⟩
    · intro b j found absent
      rw [List.mem_singleton] at absent
      have notUpper : b ≠ v := by
        rintro rfl
        rw [Function.update_self] at found
        cases found
      rw [Function.update_of_ne notUpper, Function.update_of_ne absent] at found
      exact ⟨j, found, by simpa using absent⟩
    · intro b member
      rw [List.mem_singleton.mp member, Function.update_of_ne uNe]
      exact ⟨i, Function.update_self ..⟩

end Ydb
