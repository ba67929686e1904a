import Mathlib.Logic.ExistsUnique
import Ydb.SmallStorageRelease

/-!
# Runs of small storage

Storage is obtained and returned in any order. In between, whoever uses storage
may write into it, and what is not the program's may change.
-/

namespace Ydb

open Lib

/-- The bytes of storage in use, the header among them. -/
def LiveStorage.Has (l : LiveStorage) (x : Nat) : Prop := l.uStor ≤ x ∧ x < l.uStor + l.realLen

/-- Before the first request. -/
structure Storage.Initial (s : Storage) : Prop where
  queues : ∀ i, s.freeStorElemQs i = []
  headers : s.storExtHdrQ = []
  curExtents : s.curExtents = 0
  totalAlloc : s.totalAlloc = 0
  areas : s.areas = []
  live : s.live = []

/-- A header is where the program does not keep it from being written over: some of its
bytes are in use by others. -/
def Storage.Writable (s : Storage) (a length : Nat) : Prop :=
  ∃ x, a ≤ x ∧ x < a + length ∧
    ((∃ l ∈ s.live, l.Has x ∧ l.uStor + hdrSize ≤ x) ∨
      ∀ area ∈ s.areas, x < area.1 ∨ area.1 + area.2 ≤ x)

/-- A call of the storage manager. -/
inductive StorageStep : Storage → Storage → Prop
  | malloc {s s' : Storage} {addr size : Nat} {result : Option Nat}
      (fresh : ∀ area ∈ s.areas, Apart (addr, systemSize size) area)
      (run : gtm_malloc_main addr size s = some (s', result)) : StorageStep s s'
  | free {s s' : Storage} {l : LiveStorage} (isLive : l ∈ s.live)
      (run : gtm_free_main (some (l.uStor + hdrSize)) s = some s') : StorageStep s s'
  | freeNull {s s' : Storage} (run : gtm_free_main none s = some s') : StorageStep s s'
  | write {s : Storage} {elem : Nat → StorElem} {ext : Nat → StorExtHdr}
      (elems : ∀ a, elem a ≠ s.elem a → s.Writable a hdrSize)
      (exts : ∀ h, ext h ≠ s.ext h → s.Writable h SIZEOF_storExtHdr) :
      StorageStep s { s with elem := elem, ext := ext }

/-- The states that calls reach. -/
inductive StorageReachable : Storage → Prop
  | initial {s : Storage} (isInitial : s.Initial) : StorageReachable s
  | step {s s' : Storage} (reached : StorageReachable s) (step : StorageStep s s') : StorageReachable s'

/-! ## Places of what is in use -/

section Places

variable {s : Storage} {pieces : Pieces}

/-- A byte of the blocks of an extent is in the area of the extent. -/
theorem Storage.Inv.extent_of_region (inv : s.Inv pieces []) {x : Nat} (inRegion : s.region x) :
    ∃ h ∈ s.storExtHdrQ, x < h ∧ ((s.ext h).extentStart, EXTENT_SIZE) ∈ s.areas ∧
      (s.ext h).extentStart ≤ x ∧ x < (s.ext h).extentStart + EXTENT_SIZE := by
  obtain ⟨h, member, inside⟩ := inRegion
  have ok := inv.extents.ok h member
  have start := ok.start_inside
  have stop := ok.end_inside
  exact ⟨h, member, inside.2, ok.area, by omega, by omega⟩

theorem mem_area_unique {areas : List (Nat × Nat)} (apart : areas.Pairwise Apart) {area area' : Nat × Nat}
    (member : area ∈ areas) (member' : area' ∈ areas) {x : Nat} (inside : area.1 ≤ x ∧ x < area.1 + area.2)
    (inside' : area'.1 ≤ x ∧ x < area'.1 + area'.2) : area = area' := by
  by_contra different
  have separate := areas_apart apart member member' different
  simp only [Apart] at separate
  omega

/-- The bytes of an element in use are covered by it, and those of other storage are in an
area that is no extent. -/
theorem Storage.Inv.place (inv : s.Inv pieces []) {l : LiveStorage} (isLive : l ∈ s.live) {x : Nat}
    (has : l.Has x) :
    Covers unit pieces l.uStor x ∨ ((l.uStor, l.realLen) ∈ s.areas ∧
      (∀ h ∈ s.storExtHdrQ, (s.ext h).extentStart ≠ l.uStor) ∧ ¬ s.region x) := by
  rcases inv.lives.inUse l isLive with ⟨i, here, _, size⟩ | ⟨_, area, notExtent⟩
  · left
    have index := inv.partition.piece_index_le here
    obtain ⟨from', upto⟩ := has
    rw [size, TwoTable_eq index] at upto
    exact covers_of here from' upto
  · refine .inr ⟨area, notExtent, ?_⟩
    intro inRegion
    obtain ⟨h, member, _, extentArea, inside⟩ := inv.extent_of_region inRegion
    have same := mem_area_unique inv.extents.areas area extentArea has inside
    exact notExtent h member (congrArg Prod.fst same).symm

/-- No byte is in use twice. -/
theorem Storage.Inv.has_unique (inv : s.Inv pieces []) {l l' : LiveStorage} (isLive : l ∈ s.live)
    (isLive' : l' ∈ s.live) {x : Nat} (has : l.Has x) (has' : l'.Has x) : l = l' := by
  apply List.inj_on_of_nodup_map inv.lives.different isLive isLive'
  rcases inv.place isLive has with covers | ⟨area, _, outside⟩
  · rcases inv.place isLive' has' with covers' | ⟨_, _, outside'⟩
    · exact inv.partition.apart covers covers'
    · exact absurd (inv.partition.inside covers) outside'
  · rcases inv.place isLive' has' with covers' | ⟨area', _, _⟩
    · exact absurd (inv.partition.inside covers') outside
    · exact congrArg Prod.fst (mem_area_unique inv.extents.areas area area' has has')

/-- The header of an element is not written over. -/
theorem Storage.Inv.piece_kept (inv : s.Inv pieces []) {a : Nat} {e : Piece} (here : pieces a = some e) :
    ¬ s.Writable a hdrSize := by
  rintro ⟨x, from', upto, used⟩
  have least : 2 ^ unit ≤ 2 ^ (e.index + unit) := Nat.pow_le_pow_right (by decide) (Nat.le_add_left _ _)
  have bound : x < a + 2 ^ (e.index + unit) := by
    have smallest : 2 ^ unit = 32 := rfl
    simp only [hdrSize] at upto
    omega
  have covers : Covers unit pieces a x := ⟨e, here, from', bound⟩
  rcases used with ⟨l, isLive, has, behind⟩ | outside
  · rcases inv.place isLive has with covers' | ⟨_, _, notInside⟩
    · obtain rfl := inv.partition.apart covers covers'
      omega
    · exact notInside (inv.partition.inside covers)
  · obtain ⟨h, _, _, area, inside⟩ := inv.extent_of_region (inv.partition.inside covers)
    have apart := outside _ area
    dsimp only at apart
    omega

theorem Storage.Inv.live_kept (inv : s.Inv pieces []) {l : LiveStorage} (isLive : l ∈ s.live) :
    ¬ s.Writable l.uStor hdrSize := by
  rcases inv.lives.inUse l isLive with ⟨i, here, _, _⟩ | ⟨_, area, _⟩
  · exact inv.piece_kept here
  · rintro ⟨x, from', upto, used⟩
    have length := inv.lives.enough l isLive
    have has : l.Has x := ⟨from', by omega⟩
    rcases used with ⟨l', isLive', has', behind⟩ | outside
    · obtain rfl := inv.has_unique isLive isLive' has has'
      omega
    · have apart := outside _ area
      dsimp only at apart
      omega

theorem Storage.Inv.header_kept (inv : s.Inv pieces []) {h : Nat} (member : h ∈ s.storExtHdrQ) :
    ¬ s.Writable h SIZEOF_storExtHdr := by
  rintro ⟨x, from', upto, used⟩
  have ok := inv.extents.ok h member
  have start := ok.start_inside
  have stop := ok.end_inside
  have below := ok.below
  have inside : (s.ext h).extentStart ≤ x ∧ x < (s.ext h).extentStart + EXTENT_SIZE := by omega
  rcases used with ⟨l, isLive, has, _⟩ | outside
  · rcases inv.place isLive has with covers | ⟨area, notExtent, _⟩
    · obtain ⟨h', member', before, area', inside'⟩ := inv.extent_of_region (inv.partition.inside covers)
      have same := mem_area_unique inv.extents.areas ok.area area' inside inside'
      have equal := List.inj_on_of_nodup_map inv.extents.different member member'
        (congrArg Prod.fst same)
      omega
    · have same := mem_area_unique inv.extents.areas ok.area area inside has
      exact notExtent h member (congrArg Prod.fst same)
  · have apart := outside _ ok.area
    dsimp only at apart
    omega

end Places

/-! ## Every run -/

/-- The initial state has the invariant. -/
theorem Storage.Initial.inv {s : Storage} (isInitial : s.Initial) : s.Inv (fun _ => none) [] := by
  have noRegion : ∀ x, ¬ s.region x := by
    rintro x ⟨h, member, _⟩
    rw [isInitial.headers] at member
    cases member
  refine ⟨?_, ?_, ?_, ?_⟩
  · constructor
    · intro a e found
      cases found
    · intro a e found
      cases found
    · intro x inRegion
      exact absurd inRegion (noRegion x)
    · rintro a x ⟨e, found, _⟩
      cases found
    · rintro a b x ⟨e, found, _⟩
      cases found
    · intro x y inRegion
      exact absurd inRegion (noRegion x)
  · constructor
    · intro i a
      simp [isInitial.queues i]
    · intro i
      rw [isInitial.queues i]
      exact List.nodup_nil
    · intro a e found
      cases found
    · intro a i found
      cases found
    · intro a i found
      cases found
    · intro a i found
      cases found
  · constructor
    · intro h member
      rw [isInitial.headers] at member
      cases member
    · rw [isInitial.headers]
      exact List.nodup_nil
    · rw [isInitial.headers, isInitial.curExtents]
      rfl
    · intro h member
      rw [isInitial.headers] at member
      cases member
    · rw [isInitial.areas]
      exact List.Pairwise.nil
  · constructor
    · intro l member
      rw [isInitial.live] at member
      cases member
    · intro l member
      rw [isInitial.live] at member
      cases member
    · intro l member
      rw [isInitial.live] at member
      cases member
    · rw [isInitial.live]
      exact List.nodup_nil
    · rw [isInitial.live, isInitial.totalAlloc]
      rfl
    · intro a i found
      cases found
    · intro a member
      cases member

/-- Writes where the owner may write break nothing. -/
theorem Storage.Inv.write {s : Storage} {pieces : Pieces} (inv : s.Inv pieces [])
    {elem : Nat → StorElem} {ext : Nat → StorExtHdr}
    (elems : ∀ a, elem a ≠ s.elem a → s.Writable a hdrSize)
    (exts : ∀ h, ext h ≠ s.ext h → s.Writable h SIZEOF_storExtHdr) :
    Storage.Inv { s with elem := elem, ext := ext } pieces [] := by
  have elemLive : ∀ l ∈ s.live, elem l.uStor = s.elem l.uStor := fun l isLive =>
    not_not.mp (mt (elems l.uStor) (inv.live_kept isLive))
  have extSame : ∀ h ∈ s.storExtHdrQ, ext h = s.ext h := fun h member =>
    not_not.mp (mt (exts h) (inv.header_kept member))
  apply @Storage.Inv.elsewhere s { s with elem := elem, ext := ext } pieces [] inv _ extSame
    rfl rfl rfl inv.extents.areas
  · exact fun h member => (inv.extents.ok h member).area
  · refine ⟨?_, ?_, inv.lives.enough, inv.lives.different, inv.lives.total, inv.lives.all,
      inv.lives.hand_inUse⟩
    · intro l isLive
      rcases inv.lives.inUse l isLive with inPiece | ⟨real, area, notExtent⟩
      · exact .inl inPiece
      · refine .inr ⟨?_, area, ?_⟩
        · dsimp only
          rw [elemLive l isLive]
          exact real
        · intro h member
          dsimp only
          rw [extSame h member]
          exact notExtent h member
    · intro l isLive
      dsimp only
      rw [elemLive l isLive]
      exact inv.lives.length l isLive
  · intro a e found
    exact not_not.mp (mt (elems a) (inv.piece_kept found))

/-- A step keeps the invariant. -/
theorem StorageStep.inv {s s' : Storage} {pieces : Pieces} (step : StorageStep s s')
    (inv : s.Inv pieces []) : ∃ pieces', s'.Inv pieces' [] := by
  cases step with
  | @malloc _ addr size _ fresh run =>
    by_cases positive : 0 < size
    · by_cases fits : size + hdrSize < 2 ^ 64
      · obtain ⟨t, _, _, pieces', result, inv', _⟩ := gtm_malloc_main_spec inv positive fits fresh
        rw [run] at result
        cases result
        exact ⟨pieces', inv'⟩
      · rw [gtm_malloc_main, if_neg (by omega), if_pos (by omega)] at run
        cases run
    · rw [gtm_malloc_main, if_pos (by omega)] at run
      cases run
      exact ⟨pieces, inv⟩
  | free isLive run =>
    obtain ⟨t, pieces', result, inv', _⟩ := gtm_free_main_spec inv isLive
    rw [run] at result
    cases result
    exact ⟨pieces', inv'⟩
  | freeNull run =>
    cases run
    exact ⟨pieces, inv⟩
  | write elems exts => exact ⟨pieces, inv.write elems exts⟩

theorem StorageReachable.inv {s : Storage} (reached : StorageReachable s) : ∃ pieces, s.Inv pieces [] := by
  induction reached with
  | initial isInitial => exact ⟨_, isInitial.inv⟩
  | step _ step ih =>
    obtain ⟨pieces, inv⟩ := ih
    exact step.inv inv

/-! ## What holds in every state -/

/-- Elements, queues, extents and storage in use fit together. -/
structure Storage.Sound (s : Storage) (pieces : Pieces) : Prop where
  /-- The blocks of an extent are aligned, and every byte of them is in one element. -/
  partition : ∀ h ∈ s.storExtHdrQ, MAXTWO ∣ (s.ext h).elemStart ∧ MAXTWO ∣ h ∧
    ∀ x, (s.ext h).elemStart ≤ x → x < h →
      ∃! a, ∃ e, pieces a = some e ∧ a ≤ x ∧ x < a + TwoTable e.index
  /-- An element is in an extent, and is aligned to its length. -/
  element : ∀ a e, pieces a = some e → e.index ≤ MAXINDEX ∧ TwoTable e.index ∣ a ∧
    (s.elem a).queueIndex = e.index ∧ (s.elem a).state = (if e.free then Free else Allocated) ∧
    ∃ h ∈ s.storExtHdrQ, (s.ext h).elemStart ≤ a ∧ a + TwoTable e.index ≤ h
  queues : ∀ i a, a ∈ s.freeStorElemQs i ↔ pieces a = some ⟨i, true⟩
  queue_nodup : ∀ i, (s.freeStorElemQs i).Nodup
  buddies : ∀ a i, i < MAXINDEX → pieces a = some ⟨i, true⟩ →
    pieces (a ^^^ TwoTable i) ≠ some ⟨i, true⟩
  elemsAllocd : ∀ h ∈ s.storExtHdrQ, (s.ext h).elemsAllocd =
    (blocksFrom (s.ext h).elemStart h).countP fun b => pieces b != some ⟨MAXINDEX, true⟩
  /-- What is in use is an element that is not free, or an area of its own. -/
  live : ∀ l ∈ s.live, (∃ i, pieces l.uStor = some ⟨i, false⟩ ∧ l.realLen = TwoTable i) ∨
    (l.uStor, l.realLen) ∈ s.areas
  inUse : ∀ a i, pieces a = some ⟨i, false⟩ → ∃ l ∈ s.live, l.uStor = a
  enough : ∀ l ∈ s.live, l.uStor + hdrSize + l.size ≤ l.uStor + l.realLen
  apart : s.live.Pairwise fun l l' => ∀ x, ¬ (l.Has x ∧ l'.Has x)
  total : s.totalAlloc = (s.live.map LiveStorage.realLen).sum

theorem Storage.Inv.element_inside {s : Storage} {pieces : Pieces} (inv : s.Inv pieces []) {a : Nat}
    {e : Piece} (here : pieces a = some e) :
    ∃ h ∈ s.storExtHdrQ, (s.ext h).elemStart ≤ a ∧ a + 2 ^ (e.index + unit) ≤ h := by
  obtain ⟨h, member, inside⟩ := inv.partition.inside (covers_self here)
  refine ⟨h, member, inside.1, ?_⟩
  have ok := inv.extents.ok h member
  -- The end of an extent is a multiple of the length, as the start of the element is.
  have aligned := inv.partition.aligned here
  have small : e.index + unit ≤ MAXINDEX + unit := Nat.add_le_add_right (inv.partition.index_le here) unit
  have headerAligned : 2 ^ (e.index + unit) ∣ h := by
    apply Nat.dvd_trans (Nat.pow_dvd_pow 2 small)
    rw [← MAXTWO_eq]
    exact ok.aligned
  have apart := Nat.le_of_dvd (by omega) (Nat.dvd_sub headerAligned aligned)
  omega

/-- What the invariant says to callers. -/
theorem Storage.Inv.sound {s : Storage} {pieces : Pieces} (inv : s.Inv pieces []) : s.Sound pieces := by
  have size : ∀ {a e}, pieces a = some e → TwoTable e.index = 2 ^ (e.index + unit) := fun here =>
    TwoTable_eq (inv.partition.index_le here)
  constructor
  · intro h member
    have ok := inv.extents.ok h member
    refine ⟨ok.start_aligned, ok.aligned, ?_⟩
    intro x from' upto
    obtain ⟨a, e, here, bounds⟩ := inv.partition.covered ⟨h, member, from', upto⟩
    refine ⟨a, ⟨e, here, ?_⟩, ?_⟩
    · rw [size here]
      exact bounds
    · rintro b ⟨f, there, bounds'⟩
      rw [size there] at bounds'
      exact inv.partition.apart ⟨f, there, bounds'⟩ ⟨e, here, bounds⟩
  · rintro a ⟨i, free⟩ here
    rw [size here]
    refine ⟨inv.partition.index_le here, inv.partition.aligned here, inv.elements.index here, ?_,
      inv.element_inside here⟩
    cases free with
    | true => exact inv.elements.free here
    | false => exact inv.elements.inUse here List.not_mem_nil
  · exact inv.elements.queues
  · exact inv.elements.queue_nodup
  · intro a i small free
    rw [TwoTable_eq (Nat.le_of_lt small)]
    exact inv.elements.alone free small
  · exact inv.extents.allocd
  · intro l isLive
    rcases inv.lives.inUse l isLive with ⟨i, here, _, length⟩ | ⟨_, area, _⟩
    · exact .inl ⟨i, here, length⟩
    · exact .inr area
  · exact fun a i here => inv.lives.all here List.not_mem_nil
  · intro l isLive
    have enough := inv.lives.enough l isLive
    omega
  · have nodup : s.live.Nodup := List.Nodup.of_map _ inv.lives.different
    apply nodup.imp_of_mem
    rintro l l' isLive isLive' different x ⟨has, has'⟩
    exact different (inv.has_unique isLive isLive' has has')
  · exact inv.lives.total

/-- In every state that runs reach, elements, queues, extents and storage in use fit together,
any request is served, and storage in use can be returned. -/
theorem small_storage_runs {s : Storage} (reached : StorageReachable s) :
    ∃ pieces, s.Sound pieces ∧
      (∀ addr size, 0 < size → size + hdrSize < 2 ^ 64 →
        (∀ area ∈ s.areas, Apart (addr, systemSize size) area) →
        ∃ s' u length, gtm_malloc_main addr size s = some (s', some (u + hdrSize)) ∧
          s'.live = ⟨u, length, size⟩ :: s.live) ∧
      ∀ l ∈ s.live, ∃ s', gtm_free_main (some (l.uStor + hdrSize)) s = some s' ∧
        TakenBack s pieces l s' := by
  obtain ⟨pieces, inv⟩ := reached.inv
  refine ⟨pieces, inv.sound, ?_, ?_⟩
  · intro addr size positive fits fresh
    obtain ⟨s', u, length, _, result, _, live⟩ := gtm_malloc_main_spec inv positive fits fresh
    exact ⟨s', u, length, result, live⟩
  · intro l isLive
    obtain ⟨s', _, result, _, taken⟩ := gtm_free_main_spec inv isLive
    exact ⟨s', result, taken⟩

/-- No request was made yet. -/
def noStorage : Storage where
  elem _ := ⟨0, 0, 0, 0⟩
  ext _ := ⟨0, 0, 0⟩
  freeStorElemQs _ := []
  storExtHdrQ := []
  curExtents := 0
  totalRmalloc := 0
  totalAlloc := 0
  totalUsed := 0
  areas := []
  live := []

theorem noStorage_initial : noStorage.Initial :=
  ⟨fun _ => rfl, rfl, rfl, rfl, rfl, rfl⟩

/-- The state that a request leaves. -/
def storageAfter (served : Option (Storage × Option Nat)) : Storage :=
  (served.map Prod.fst).getD noStorage

theorem eq_storageAfter {served : Option (Storage × Option Nat)} {result : Option Nat}
    (returned : served.map Prod.snd = some result) : served = some (storageAfter served, result) := by
  cases served with
  | none => cases returned
  | some r =>
    cases returned
    rfl

/-- A request for 100 bytes, for which the system gives an extent at 8. -/
def oneServed : Storage := storageAfter (gtm_malloc_main 8 100 noStorage)

/-- A request for 200 bytes out of the same extent. -/
def twoServed : Storage := storageAfter (gtm_malloc_main 40000 200 oneServed)

/-- The first storage is returned: its element of 128 bytes merges with its buddy at 2176 to
one of 256 bytes, whose own buddy at 2304 is in use. -/
theorem small_storage_runs_merge : ∃ s, StorageReachable s ∧ s.live = [⟨2304, 256, 200⟩] ∧
    s.freeStorElemQs 2 = [] ∧ s.freeStorElemQs 3 = [2048] ∧ ∃ pieces, s.Sound pieces ∧
      (∀ addr size, 0 < size → size + hdrSize < 2 ^ 64 →
        (∀ area ∈ s.areas, Apart (addr, systemSize size) area) →
        ∃ s' u length, gtm_malloc_main addr size s = some (s', some (u + hdrSize)) ∧
          s'.live = ⟨u, length, size⟩ :: s.live) ∧
      ∀ l ∈ s.live, ∃ s', gtm_free_main (some (l.uStor + hdrSize)) s = some s' ∧
        TakenBack s pieces l s' := by
  have first : StorageReachable oneServed := by
    apply StorageReachable.step (.initial noStorage_initial)
    apply StorageStep.malloc _ (eq_storageAfter (show _ = some (some 2064) by decide +kernel))
    intro area member
    cases member
  have areas : oneServed.areas = [(8, 34856)] := by decide +kernel
  have second : StorageReachable twoServed := by
    apply first.step
    apply StorageStep.malloc _ (eq_storageAfter (show _ = some (some 2320) by decide +kernel))
    intro area member
    rw [areas] at member
    cases List.mem_singleton.mp member
    exact .inr (by decide)
  have freed : (gtm_free_main (some (2048 + hdrSize)) twoServed).any (fun s =>
      s.live == [⟨2304, 256, 200⟩] && s.freeStorElemQs 2 == [] &&
        s.freeStorElemQs 3 == [2048]) = true := by
    decide +kernel
  obtain ⟨s, run, parts⟩ := (Option.any_eq_true _ _).mp freed
  rw [Bool.and_eq_true, Bool.and_eq_true, beq_iff_eq, beq_iff_eq, beq_iff_eq] at parts
  have isLive : (⟨2048, 128, 100⟩ : LiveStorage) ∈ twoServed.live := by decide +kernel
  have reached : StorageReachable s := second.step (.free isLive run)
  exact ⟨s, reached, parts.1.1, parts.1.2, parts.2, small_storage_runs reached⟩

end Ydb
