import Mathlib.Algebra.BigOperators.Group.Finset.Piecewise
import Mathlib.Algebra.Order.Group.Multiset
import Mathlib.Logic.Equiv.Basic
import Ydb.LockHashTable

/-!
# Insertion into the hash table of the lock tree

The maps of the buckets tell exactly which entries belong to them. Moving an entry within
its neighbourhood keeps this, and brings the free bucket strictly closer, so that the
search ends.
-/

namespace Ydb.LockHashTable

open Lib

/-! ## What a table keeps -/

/-- The first `reach` bits of each map tell where the entries of the bucket are, and these are near. -/
structure Hopscotch (reach n : Nat) (table : Nat → mlk_shrhash) : Prop where
  maps : ∀ b < n, ∀ k < reach, (table b).usedmap.getLsbD k = true ↔
    (table ((b + k) % n)).shrblk_idx ≠ 0 ∧ homeBucket n (table ((b + k) % n)).hash = b
  near : ∀ i < n, (table i).shrblk_idx ≠ 0 →
    ringOffset n (homeBucket n (table i).hash) i < MLK_SHRHASH_NEIGHBORS

/-- The entry in a bucket, or nothing. -/
def entryOf (bucket : mlk_shrhash) : Multiset (BitVec 64 × Nat) :=
  if bucket.shrblk_idx = 0 then 0 else {(bucket.hash, bucket.shrblk_idx)}

/-- The entries of a table. -/
def entries (n : Nat) (table : Nat → mlk_shrhash) : Multiset (BitVec 64 × Nat) :=
  ∑ i ∈ Finset.range n, entryOf (table i)

variable {n reach si mi fi bi : Nat} {table : Nat → mlk_shrhash}

theorem homeBucket_lt (positive : 0 < n) (hash : BitVec 64) : homeBucket n hash < n := Nat.mod_lt _ positive

/-! ## Bits of a map -/

theorem getLsbD_SET_NEIGHBOR (map : BitVec 32) (offset : Nat) {k : Nat} (inside : k < 32) :
    (SET_NEIGHBOR map offset).getLsbD k = (map.getLsbD k || decide (k = offset)) := by
  rw [SET_NEIGHBOR, BitVec.getLsbD_or, BitVec.getLsbD_shiftLeft, BitVec.getLsbD_one]
  by_cases same : k = offset
  · simp [same, same ▸ inside]
  · simp [same, inside]
    omega

theorem getLsbD_CLEAR_NEIGHBOR (map : BitVec 32) (offset : Nat) {k : Nat} (inside : k < 32) :
    (CLEAR_NEIGHBOR map offset).getLsbD k = (map.getLsbD k && !decide (k = offset)) := by
  rw [CLEAR_NEIGHBOR, BitVec.getLsbD_and, BitVec.getLsbD_not, BitVec.getLsbD_shiftLeft, BitVec.getLsbD_one]
  by_cases same : k = offset
  · simp [same, same ▸ inside]
  · simp [same, inside]
    omega

/-! ## The free bucket -/

/-- The bucket found is empty. -/
theorem freeLoop_spec (table : Nat → mlk_shrhash) (home : bi < n) {turns fi : Nat} (inside : fi < n)
    (left : ringOffset n bi fi + turns = n) :
    ∃ result, freeLoop table n bi turns fi = some result ∧
      ∀ free, result = some free → free < n ∧ (table free).shrblk_idx = 0 := by
  induction turns generalizing fi with
  | zero =>
    have below : ringOffset n bi fi < n := ringOffset_lt home
    omega
  | succ turns ih =>
    rw [freeLoop]
    by_cases used : (table fi).shrblk_idx ≠ 0
    · rw [if_pos used]
      by_cases around : (fi + 1) % n = bi
      · rw [if_pos around]
        exact ⟨none, rfl, nofun⟩
      · rw [if_neg around]
        apply ih (Nat.mod_lt _ (by omega))
        rw [ringOffset_next home inside around]
        omega
    · rw [if_neg used]
      refine ⟨some fi, rfl, fun free same => ?_⟩
      cases same
      exact ⟨inside, not_not.mp used⟩

/-! ## The bucket to move -/

/-- Where the scan of a map stops, which is not past the free bucket. -/
theorem pullLoop_spec (first : si < n) (second : fi < n) (map : BitVec 32) {left c : Nat}
    (rest : left + c = 32) (before : c ≤ ringOffset n si fi) :
    ∃ c', c' ≤ ringOffset n si fi ∧
      (pullLoop n fi left (map >>> c) ((si + c) % n)).1 = (si + c') % n ∧
      ((pullLoop n fi left (map >>> c) ((si + c) % n)).1 ≠ fi →
        (pullLoop n fi left (map >>> c) ((si + c) % n)).2 ≠ 0 → map.getLsbD c' = true) := by
  induction left generalizing c with
  | zero => exact ⟨c, before, rfl, fun _ more => absurd rfl more⟩
  | succ left ih =>
    rw [pullLoop]
    by_cases pass : map >>> c &&& 1 = 0 ∧ (si + c) % n ≠ fi
    · have shift : map >>> c >>> 1 = map >>> (c + 1) := by rw [BitVec.shiftRight_add]
      have next : ((si + c) % n + 1) % n = (si + (c + 1)) % n := by
        rw [Nat.mod_add_mod, Nat.add_assoc]
      have short : c ≠ ringOffset n si fi := by
        rintro rfl
        exact pass.2 (ring_add_offset first second)
      rw [if_pos pass, shift, next]
      exact ih (by omega) (by omega)
    · rw [if_neg pass]
      refine ⟨c, before, rfl, fun apart _ => ?_⟩
      have bit : map >>> c &&& 1 ≠ 0 := fun clear => pass ⟨clear, apart⟩
      by_contra off
      apply bit
      apply BitVec.eq_of_getLsbD_eq
      intro j inside
      have one : (1 : BitVec 32).getLsbD j = decide (j = 0) := by
        have unit : (1 : BitVec 32) = 1#32 := rfl
        rw [unit, BitVec.getLsbD_one]
        simp
      rw [BitVec.getLsbD_and, BitVec.getLsbD_ushiftRight, one]
      by_cases zero : j = 0
      · subst zero
        simpa using off
      · simp [zero]

/-- A bucket that is found has an entry before the free bucket. -/
theorem hopLoop_spec (table : Nat → mlk_shrhash) (inside : fi < n) {turns si : Nat} (first : si < n) (reach : ringOffset n si fi < 32)
    (left : ringOffset n si fi < turns) :
    hopLoop table n fi turns si = some none ∨
      ∃ si' c, hopLoop table n fi turns si = some (some (si', (si' + c) % n)) ∧ si' < n ∧
        c < ringOffset n si' fi ∧ ringOffset n si' fi < 32 ∧ (table si').usedmap.getLsbD c = true := by
  induction turns generalizing si with
  | zero => exact absurd left (Nat.not_lt_zero _)
  | succ turns ih =>
    rw [hopLoop]
    by_cases here : si = fi
    · exact .inl (if_pos here)
    have step := ringOffset_step first inside here
    have next := ih (Nat.mod_lt (si + 1) (by omega : 0 < n)) (by omega) (by omega)
    rw [if_neg here]
    by_cases none : (table si).usedmap = 0
    · rw [if_pos none]
      exact next
    rw [if_neg none]
    obtain ⟨c, before, place, bit⟩ := pullLoop_spec first inside (table si).usedmap (c := 0) rfl (Nat.zero_le _)
    have start : (si + 0) % n = si := Nat.mod_eq_of_lt first
    rw [start, BitVec.ushiftRight_zero] at place bit
    dsimp only [MLK_SHRHASH_NEIGHBORS]
    generalize pullLoop n fi 32 (table si).usedmap si = pulled at place bit ⊢
    obtain ⟨mi, rest⟩ := pulled
    dsimp only at place bit ⊢
    by_cases found : mi ≠ fi ∧ rest ≠ 0
    · subst place
      have short : c ≠ ringOffset n si fi := by
        rintro rfl
        exact found.1 (ring_add_offset first inside)
      rw [if_pos found]
      exact .inr ⟨si, c, rfl, first, by omega, reach, bit found.1 found.2⟩
    · rw [if_neg found]
      exact next

/-! ## The move -/

section Move

variable (apart : mi ≠ fi) (other : si ≠ fi) (j : Nat)
include apart other

theorem moveBucket_shrblk_idx : (moveBucket table n si mi fi j).shrblk_idx =
    if j = mi then 0 else if j = fi then (table mi).shrblk_idx else (table j).shrblk_idx := by
  unfold moveBucket
  simp only [setBucket]
  split_ifs <;> simp_all

theorem moveBucket_hash : (moveBucket table n si mi fi j).hash =
    if j = mi then 0 else if j = fi then (table mi).hash else (table j).hash := by
  unfold moveBucket
  simp only [setBucket]
  split_ifs <;> simp_all

theorem moveBucket_usedmap : (moveBucket table n si mi fi j).usedmap =
    if j = si then SET_NEIGHBOR (CLEAR_NEIGHBOR (table si).usedmap (ringOffset n si mi)) (ringOffset n si fi)
    else (table j).usedmap := by
  unfold moveBucket
  simp only [setBucket]
  split_ifs <;> simp_all

end Move

/-- Offsets within the neighbourhood name different buckets. -/
theorem neighbour_inj (first : si < n) {k c : Nat} (kInside : k < n) (cInside : c < n) :
    (si + k) % n = (si + c) % n ↔ k = c := by
  constructor
  · intro same
    rw [← ringOffset_add first kInside, same, ringOffset_add first cInside]
  · rintro rfl
    rfl

/-- A bucket before the free one, on the way from `si`. -/
theorem move_apart (first : si < n) (inside : fi < n) {c : Nat} (before : c < ringOffset n si fi) :
    (si + c) % n ≠ fi ∧ si ≠ fi ∧ ringOffset n ((si + c) % n) fi = ringOffset n si fi - c := by
  have place : (si + ringOffset n si fi) % n = fi := ring_add_offset first inside
  have below : ringOffset n si fi < n := ringOffset_lt first
  have along : ((si + c) % n + (ringOffset n si fi - c)) % n = fi := by
    have sum : si + c + (ringOffset n si fi - c) = si + ringOffset n si fi := by omega
    rw [Nat.mod_add_mod, sum, place]
  have between : ringOffset n ((si + c) % n) fi = ringOffset n si fi - c := by
    have there := ringOffset_add (k := ringOffset n si fi - c) (Nat.mod_lt (si + c) (by omega : 0 < n)) (by omega)
    rw [along] at there
    exact there
  refine ⟨fun same => ?_, ?_, between⟩
  · rw [same, ringOffset_self inside] at between
    omega
  · rintro rfl
    rw [ringOffset_self first] at before
    exact Nat.not_lt_zero _ before

/-- The scan begins as far before the free bucket as an entry may be moved. -/
theorem ringOffset_start (large : 32 < n) (inside : fi < n) :
    ringOffset n ((n + fi - MLK_SHRHASH_NEIGHBORS + 1) % n) fi = 31 := by
  have start : n + fi - MLK_SHRHASH_NEIGHBORS + 1 = fi + (n - 31) := by
    change n + fi - 32 + 1 = _
    omega
  rw [start, ring_add inside (Nat.sub_le n 31)]
  by_cases low : fi + (n - 31) < n
  · rw [if_pos low, ringOffset_of_lt (by omega) low]
    omega
  · rw [if_neg low, ringOffset_of_le (by omega) inside]
    omega

/-- An entry moved within its neighbourhood. -/
theorem Hopscotch.move (hop : Hopscotch 32 n table) (first : si < n) (inside : fi < n) {c : Nat}
    (empty : (table fi).shrblk_idx = 0) (before : c < ringOffset n si fi) (reach : ringOffset n si fi < 32)
    (large : 32 < n) (bit : (table si).usedmap.getLsbD c = true) :
    Hopscotch 32 n (moveBucket table n si ((si + c) % n) fi) := by
  have cInside : c < n := by omega
  have place : (si + ringOffset n si fi) % n = fi := ring_add_offset first inside
  obtain ⟨apart, other, -⟩ := move_apart first inside before
  obtain ⟨used, home⟩ := (hop.maps si first c (by omega)).mp bit
  have away : ringOffset n si ((si + c) % n) = c := ringOffset_add first cInside
  constructor
  · intro b inTable k within
    have kInside : k < n := by omega
    rw [moveBucket_usedmap apart other, moveBucket_shrblk_idx apart other, moveBucket_hash apart other]
    by_cases own : b = si
    · -- the bits of the entry moved, and the others of its map
      subst own
      rw [if_pos rfl, away, getLsbD_SET_NEIGHBOR _ _ within, getLsbD_CLEAR_NEIGHBOR _ _ within]
      by_cases gone : k = c
      · subst gone
        have unset : k ≠ ringOffset n b fi := by omega
        simp [unset]
      · have stays : (b + k) % n ≠ (b + c) % n := fun same => gone ((neighbour_inj first kInside cInside).mp same)
        by_cases new : k = ringOffset n b fi
        · subst new
          rw [place]
          simp [apart.symm, used, home]
        · have elsewhere : (b + k) % n ≠ fi := by
            intro same
            rw [← place, neighbour_inj first kInside (by omega)] at same
            exact new same
          rw [if_neg stays, if_neg elsewhere, if_neg stays, if_neg elsewhere, ← hop.maps b first k within]
          simp [gone, new]
    · rw [if_neg own, hop.maps b inTable k within]
      by_cases left : (b + k) % n = (si + c) % n
      · -- the entry there did not belong to `b`
        rw [left, home]
        simp [Ne.symm own]
      · by_cases there : (b + k) % n = fi
        · rw [if_neg left, if_neg left, if_pos there, if_pos there, there, home]
          simp [empty, Ne.symm own]
        · rw [if_neg left, if_neg left, if_neg there, if_neg there]
  · intro i inTable
    rw [moveBucket_shrblk_idx apart other, moveBucket_hash apart other]
    by_cases left : i = (si + c) % n
    · rw [if_pos left]
      exact fun some => absurd rfl some
    · by_cases there : i = fi
      · rw [if_neg left, if_neg left, if_pos there, if_pos there, home, there]
        exact fun _ => reach
      · rw [if_neg left, if_neg left, if_neg there, if_neg there]
        exact hop.near i inTable

/-- No entry is lost or copied by a move. -/
theorem entries_move (first : mi < n) (inside : fi < n) (apart : mi ≠ fi) (other : si ≠ fi)
    (empty : (table fi).shrblk_idx = 0) : entries n (moveBucket table n si mi fi) = entries n table := by
  apply Finset.sum_equiv (Equiv.swap mi fi)
  · intro i
    simp only [Finset.mem_range]
    by_cases left : i = mi
    · subst left
      simp [first, inside]
    · by_cases there : i = fi
      · subst there
        simp [first, inside]
      · rw [Equiv.swap_apply_of_ne_of_ne left there]
  · intro i _
    rw [entryOf, moveBucket_shrblk_idx apart other, moveBucket_hash apart other]
    by_cases left : i = mi
    · subst left
      simp [entryOf, empty]
    · by_cases there : i = fi
      · subst there
        simp [entryOf, apart.symm]
      · rw [Equiv.swap_apply_of_ne_of_ne left there, if_neg left, if_neg left, if_neg there, if_neg there]
        rfl

/-! ## The search -/

/-- What a search leaves. -/
structure Searched (reach : Nat) (pctl : mlk_pvtctl) (bi result : Nat) (pctl' : mlk_pvtctl) : Prop where
  size : pctl'.shrhash_size = pctl.shrhash_size
  hop : Hopscotch reach pctl.shrhash_size pctl'.shrhash
  same : entries pctl.shrhash_size pctl'.shrhash = entries pctl.shrhash_size pctl.shrhash
  free : result = MLK_SHRHASH_FOUND_NO_BUCKET ∨
    result < pctl.shrhash_size ∧ (pctl'.shrhash result).shrblk_idx = 0 ∧
      ringOffset pctl.shrhash_size bi result < MLK_SHRHASH_NEIGHBORS

theorem searchFailed_eq (pctl : mlk_pvtctl) :
    (searchFailed pctl).shrhash = pctl.shrhash ∧ (searchFailed pctl).shrhash_size = pctl.shrhash_size := by
  unfold searchFailed
  split_ifs <;> exact ⟨rfl, rfl⟩

/-- The free bucket comes closer with each move, until it is near or none can be moved. -/
theorem closerLoop_spec {pctl : mlk_pvtctl} (hop : Hopscotch reach pctl.shrhash_size pctl.shrhash)
    (wide : 32 < pctl.shrhash_size → reach = 32) (home : bi < pctl.shrhash_size)
    (inside : fi < pctl.shrhash_size) (empty : (pctl.shrhash fi).shrblk_idx = 0) {turns : Nat}
    (left : ringOffset pctl.shrhash_size bi fi < turns) :
    ∃ result pctl', closerLoop bi turns pctl fi = some (result, pctl') ∧
      Searched reach pctl bi result pctl' := by
  induction turns generalizing pctl fi with
  | zero => exact absurd left (Nat.not_lt_zero _)
  | succ turns ih =>
    rw [closerLoop]
    by_cases far : MLK_SHRHASH_NEIGHBORS ≤ ringOffset pctl.shrhash_size bi fi
    · have below : ringOffset pctl.shrhash_size bi fi < pctl.shrhash_size := ringOffset_lt home
      have large : 32 < pctl.shrhash_size := Nat.lt_of_le_of_lt far below
      obtain rfl := wide large
      have start : ringOffset pctl.shrhash_size
          ((pctl.shrhash_size + fi - MLK_SHRHASH_NEIGHBORS + 1) % pctl.shrhash_size) fi = 31 :=
        ringOffset_start large inside
      have first : (pctl.shrhash_size + fi - MLK_SHRHASH_NEIGHBORS + 1) % pctl.shrhash_size <
          pctl.shrhash_size := Nat.mod_lt _ (by omega)
      have reach : (31 : Nat) < MLK_SHRHASH_NEIGHBORS := by decide
      rw [if_pos far]
      rcases hopLoop_spec pctl.shrhash inside first (start ▸ reach) (start ▸ reach) with
        failed | ⟨si, c, found, siInside, before, near, bit⟩
      · obtain ⟨table, size⟩ := searchFailed_eq pctl
        rw [failed]
        refine ⟨_, _, rfl, size, ?_, ?_, .inl rfl⟩
        · rw [table]
          exact hop
        · rw [table]
      · have cInside : c < pctl.shrhash_size := by omega
        have miInside : (si + c) % pctl.shrhash_size < pctl.shrhash_size := Nat.mod_lt _ (by omega)
        obtain ⟨apart, other, between⟩ := move_apart siInside inside before
        have closer := ringOffset_sub home inside miInside (by omega)
        have miEmpty : (moveBucket pctl.shrhash pctl.shrhash_size si ((si + c) % pctl.shrhash_size) fi
            ((si + c) % pctl.shrhash_size)).shrblk_idx = 0 := by
          rw [moveBucket_shrblk_idx apart other, if_pos rfl]
        have moved := hop.move siInside inside empty before near large bit
        have same := entries_move miInside inside apart other empty
        rw [found]
        dsimp only
        generalize moveBucket pctl.shrhash pctl.shrhash_size si ((si + c) % pctl.shrhash_size) fi = table
          at miEmpty moved same
        have next : ∃ result pctl', closerLoop bi turns { pctl with shrhash := table }
            ((si + c) % pctl.shrhash_size) = some (result, pctl') ∧
              Searched 32 { pctl with shrhash := table } bi result pctl' :=
          ih moved wide home miInside miEmpty (by dsimp only; omega)
        obtain ⟨result, pctl', run, searched⟩ := next
        refine ⟨result, pctl', run, searched.size, searched.hop, ?_, searched.free⟩
        rw [searched.same]
        exact same
    · rw [if_neg far]
      exact ⟨fi, pctl, rfl, rfl, hop, rfl, .inr ⟨inside, empty, Nat.lt_of_not_le far⟩⟩

/-- The search ends and keeps the table in order. -/
theorem mlk_shrhash_find_bucket_spec {pctl : mlk_pvtctl}
    (hop : Hopscotch reach pctl.shrhash_size pctl.shrhash) (wide : 32 < pctl.shrhash_size → reach = 32)
    (hash : BitVec 64) :
    ∃ result pctl', mlk_shrhash_find_bucket pctl hash = some (result, pctl') ∧
      Searched reach pctl (homeBucket pctl.shrhash_size hash) result pctl' := by
  have home := homeBucket_lt pctl.some_bucket hash
  have turns : ringOffset pctl.shrhash_size (homeBucket pctl.shrhash_size hash)
      (homeBucket pctl.shrhash_size hash) + pctl.shrhash_size = pctl.shrhash_size := by
    rw [ringOffset_self home, Nat.zero_add]
  obtain ⟨result, free, spec⟩ := freeLoop_spec pctl.shrhash home home turns
  rw [mlk_shrhash_find_bucket, free]
  cases result with
  | none => exact ⟨_, _, rfl, rfl, hop, rfl, .inl rfl⟩
  | some fi =>
    obtain ⟨inside, empty⟩ := spec fi rfl
    exact closerLoop_spec hop wide home inside empty (ringOffset_lt home)

/-! ## The new entry -/

section Insert

variable (target : Nat) (shrblk_idx : Nat) (hash : BitVec 64) (pctl : mlk_pvtctl) (j : Nat)

theorem mlk_shrhash_insert_shrblk_idx :
    ((mlk_shrhash_insert pctl bi target shrblk_idx hash).shrhash j).shrblk_idx =
      if j = target then shrblk_idx else (pctl.shrhash j).shrblk_idx := by
  unfold mlk_shrhash_insert
  simp only [setBucket]
  split_ifs <;> simp_all

theorem mlk_shrhash_insert_hash : ((mlk_shrhash_insert pctl bi target shrblk_idx hash).shrhash j).hash =
    if j = target then hash else (pctl.shrhash j).hash := by
  unfold mlk_shrhash_insert
  simp only [setBucket]
  split_ifs <;> simp_all

theorem mlk_shrhash_insert_usedmap : ((mlk_shrhash_insert pctl bi target shrblk_idx hash).shrhash j).usedmap =
    if j = bi then SET_NEIGHBOR (pctl.shrhash bi).usedmap (ringOffset pctl.shrhash_size bi target)
    else (pctl.shrhash j).usedmap := by
  unfold mlk_shrhash_insert
  simp only [setBucket]
  split_ifs <;> simp_all

end Insert

variable {pctl : mlk_pvtctl} {shrblk_idx : Nat} {hash : BitVec 64}

/-- A new entry near its home is one of its neighbors. -/
theorem Hopscotch.insert (hop : Hopscotch reach pctl.shrhash_size pctl.shrhash) (short : reach ≤ 32)
    (turn : reach ≤ pctl.shrhash_size) (inside : fi < pctl.shrhash_size)
    (empty : (pctl.shrhash fi).shrblk_idx = 0) (some : shrblk_idx ≠ 0)
    (near : ringOffset pctl.shrhash_size (homeBucket pctl.shrhash_size hash) fi < MLK_SHRHASH_NEIGHBORS) :
    Hopscotch reach pctl.shrhash_size
      (mlk_shrhash_insert pctl (homeBucket pctl.shrhash_size hash) fi shrblk_idx hash).shrhash := by
  have home := homeBucket_lt (Nat.zero_lt_of_lt inside) hash
  have place := ring_add_offset home inside
  constructor
  · intro b inTable k within
    have kInside : k < pctl.shrhash_size := by omega
    rw [mlk_shrhash_insert_usedmap, mlk_shrhash_insert_shrblk_idx, mlk_shrhash_insert_hash]
    by_cases own : b = homeBucket pctl.shrhash_size hash
    · subst own
      rw [if_pos rfl, getLsbD_SET_NEIGHBOR _ _ (Nat.lt_of_lt_of_le within short)]
      by_cases new : k = ringOffset pctl.shrhash_size (homeBucket pctl.shrhash_size hash) fi
      · rw [← new] at place
        rw [if_pos place, if_pos place]
        simp [new, some]
      · have elsewhere : (homeBucket pctl.shrhash_size hash + k) % pctl.shrhash_size ≠ fi := by
          rintro rfl
          exact new (ringOffset_add home kInside).symm
        rw [if_neg elsewhere, if_neg elsewhere, ← hop.maps _ home k within]
        simp [new]
    · rw [if_neg own, hop.maps b inTable k within]
      by_cases there : (b + k) % pctl.shrhash_size = fi
      · rw [if_pos there, if_pos there, there]
        simp [empty, Ne.symm own]
      · rw [if_neg there, if_neg there]
  · intro i inTable
    rw [mlk_shrhash_insert_shrblk_idx, mlk_shrhash_insert_hash]
    by_cases there : i = fi
    · rw [if_pos there, if_pos there, there]
      exact fun _ => near
    · rw [if_neg there, if_neg there]
      exact hop.near i inTable

theorem entries_insert (bi : Nat) (inside : fi < n) (empty : (pctl.shrhash fi).shrblk_idx = 0)
    (some : shrblk_idx ≠ 0) :
    entries n (mlk_shrhash_insert pctl bi fi shrblk_idx hash).shrhash =
      (hash, shrblk_idx) ::ₘ entries n pctl.shrhash := by
  have each : ∀ i ∈ Finset.range n, entryOf ((mlk_shrhash_insert pctl bi fi shrblk_idx hash).shrhash i) =
      (if i = fi then {(hash, shrblk_idx)} else 0) + entryOf (pctl.shrhash i) := by
    intro i _
    rw [entryOf, mlk_shrhash_insert_shrblk_idx, mlk_shrhash_insert_hash]
    by_cases there : i = fi
    · subst there
      simp [entryOf, empty, some]
    · rw [if_neg there, if_neg there, if_neg there, zero_add]
      rfl
  rw [entries, Finset.sum_congr rfl each, Finset.sum_add_distrib, Finset.sum_ite_eq',
    if_pos (Finset.mem_range.mpr inside), Multiset.singleton_add]
  rfl

/-- A free bucket in its own place is used like any other near one. -/
theorem insert_home (bi : Nat) (inside : bi < pctl.shrhash_size) :
    { pctl with shrhash := setBucket pctl.shrhash bi ⟨shrblk_idx, SET_NEIGHBOR (pctl.shrhash bi).usedmap 0, hash⟩ } =
      mlk_shrhash_insert pctl bi bi shrblk_idx hash := by
  unfold mlk_shrhash_insert
  dsimp only
  rw [ringOffset_self inside]
  congr 1
  funext j
  by_cases same : j = bi
  · simp [setBucket, same]
  · simp [setBucket, same]

/-- An insertion, successful or not. -/
theorem mlk_shrhash_add_spec
    (hop : Hopscotch reach pctl.shrhash_size pctl.shrhash) (wide : 32 < pctl.shrhash_size → reach = 32)
    (short : reach ≤ 32) (turn : reach ≤ pctl.shrhash_size) (some : shrblk_idx ≠ 0) (hash : BitVec 64) :
    ∃ added pctl', mlk_shrhash_add pctl shrblk_idx hash = .some (added, pctl') ∧
      pctl'.shrhash_size = pctl.shrhash_size ∧ Hopscotch reach pctl.shrhash_size pctl'.shrhash ∧
      entries pctl.shrhash_size pctl'.shrhash =
        if added then (hash, shrblk_idx) ::ₘ entries pctl.shrhash_size pctl.shrhash
        else entries pctl.shrhash_size pctl.shrhash := by
  have home := homeBucket_lt pctl.some_bucket hash
  rw [mlk_shrhash_add]
  dsimp only
  by_cases empty : (pctl.shrhash (homeBucket pctl.shrhash_size hash)).shrblk_idx = 0
  · have near : ringOffset pctl.shrhash_size (homeBucket pctl.shrhash_size hash)
        (homeBucket pctl.shrhash_size hash) < MLK_SHRHASH_NEIGHBORS := by
      rw [ringOffset_self home]
      decide
    rw [if_pos empty, insert_home _ home]
    exact ⟨true, _, rfl, rfl, hop.insert short turn home empty some near, entries_insert _ home empty some⟩
  · obtain ⟨fi, pctl', run, searched⟩ := mlk_shrhash_find_bucket_spec hop wide hash
    rw [if_neg empty, run]
    dsimp only
    by_cases failed : fi = MLK_SHRHASH_FOUND_NO_BUCKET
    · rw [if_pos failed]
      exact ⟨false, pctl', rfl, searched.size, searched.hop, searched.same⟩
    · obtain ⟨inside, free, near⟩ := searched.free.resolve_left failed
      have hop' := searched.hop
      rw [if_neg failed]
      rw [← searched.size] at inside near hop' turn ⊢
      refine ⟨true, _, rfl, rfl, hop'.insert short turn inside free some near, ?_⟩
      rw [entries_insert _ inside free some, searched.size, searched.same]
      rfl

/-- A search ends, keeps the maps and all entries, and a bucket it returns is empty and near. With the new
entry the table is again as it should be; of a table with fewer buckets than a map has bits, only so many
bits count. -/
theorem hopscotch_insertion (pctl : mlk_pvtctl) (hash : BitVec 64) :
    (Hopscotch 32 pctl.shrhash_size pctl.shrhash →
      ∃ result pctl', mlk_shrhash_find_bucket pctl hash = some (result, pctl') ∧
        pctl'.shrhash_size = pctl.shrhash_size ∧ Hopscotch 32 pctl.shrhash_size pctl'.shrhash ∧
        entries pctl.shrhash_size pctl'.shrhash = entries pctl.shrhash_size pctl.shrhash ∧
        (result ≠ MLK_SHRHASH_FOUND_NO_BUCKET → result < pctl.shrhash_size ∧
          (pctl'.shrhash result).shrblk_idx = 0 ∧
          ringOffset pctl.shrhash_size (homeBucket pctl.shrhash_size hash) result < MLK_SHRHASH_NEIGHBORS)) ∧
    (∀ shrblk_idx ≠ 0, Hopscotch (min 32 pctl.shrhash_size) pctl.shrhash_size pctl.shrhash →
      ∃ added pctl', mlk_shrhash_add pctl shrblk_idx hash = some (added, pctl') ∧
        pctl'.shrhash_size = pctl.shrhash_size ∧
        Hopscotch (min 32 pctl.shrhash_size) pctl.shrhash_size pctl'.shrhash ∧
        entries pctl.shrhash_size pctl'.shrhash =
          if added then (hash, shrblk_idx) ::ₘ entries pctl.shrhash_size pctl.shrhash
          else entries pctl.shrhash_size pctl.shrhash) := by
  constructor
  · intro hop
    obtain ⟨result, pctl', run, searched⟩ := mlk_shrhash_find_bucket_spec hop (fun _ => rfl) hash
    exact ⟨result, pctl', run, searched.size, searched.hop, searched.same, searched.free.resolve_left⟩
  · intro shrblk_idx some hop
    exact mlk_shrhash_add_spec hop (fun wide => by omega) (Nat.min_le_left _ _) (Nat.min_le_right _ _) some hash

/-- A table of forty buckets, each with an entry of its own but for bucket 12, which is free. -/
def crowdedTable : mlk_pvtctl where
  ctl := ⟨80, 40, 41, false, false, false⟩
  shrhash i := if i = 12 then ⟨0, 0, 0⟩ else ⟨i + 1, 1, BitVec.ofNat 64 i⟩
  shrhash_size := 40
  hash_fail_cnt := 0
  gc_needed := false
  resize_needed := false
  rehash_needed := false
  some_bucket := by decide
  few_buckets := by decide

theorem crowdedTable_hopscotch : Hopscotch 32 40 crowdedTable.shrhash := by
  constructor
  · decide +kernel
  · decide +kernel

/-- The free bucket is 32 buckets behind bucket 20, around the end of the table. The entry of bucket 21 moves to it,
and the new one takes its place. -/
theorem hopscotch_insertion_hops :
    (∃ pctl', mlk_shrhash_find_bucket crowdedTable 60 = some (21, pctl') ∧
      (pctl'.shrhash 12).shrblk_idx = 22 ∧ (pctl'.shrhash 21).shrblk_idx = 0 ∧
      Hopscotch 32 40 pctl'.shrhash ∧ entries 40 pctl'.shrhash = entries 40 crowdedTable.shrhash ∧
      ringOffset 40 (homeBucket 40 60) 21 < MLK_SHRHASH_NEIGHBORS) ∧
    ∃ pctl', mlk_shrhash_add crowdedTable 99 60 = some (true, pctl') ∧
      Hopscotch (min 32 40) 40 pctl'.shrhash ∧
      entries 40 pctl'.shrhash = (60, 99) ::ₘ entries 40 crowdedTable.shrhash := by
  constructor
  · obtain ⟨result, pctl', run, -, hop, same, free⟩ := (hopscotch_insertion crowdedTable 60).1 crowdedTable_hopscotch
    have found : (mlk_shrhash_find_bucket crowdedTable 60).map (fun found =>
        (found.1, (found.2.shrhash 12).shrblk_idx)) = some (21, 22) := by decide +kernel
    rw [run] at found
    obtain ⟨rfl, moved⟩ := Prod.mk.inj (Option.some.inj found)
    obtain ⟨-, empty, near⟩ := free (by decide)
    exact ⟨pctl', run, moved, empty, hop, same, near⟩
  · obtain ⟨added, pctl', run, -, hop, same⟩ :=
      (hopscotch_insertion crowdedTable 60).2 99 (by decide) crowdedTable_hopscotch
    have taken : (mlk_shrhash_add crowdedTable 99 60).map Prod.fst = some true := by decide +kernel
    rw [run] at taken
    obtain rfl := Option.some.inj taken
    exact ⟨pctl', run, hop, same⟩

end Ydb.LockHashTable
