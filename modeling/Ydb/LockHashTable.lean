import Ydb.Lib.RingOffset

/-!
# The hash table of the lock tree

Each bucket of the table holds the hash and the index of a node, or nothing, and a map
of the next buckets: a bit is set where an entry stands whose hash leads to this bucket.
An entry that finds no free bucket near its own makes the free bucket move closer, by
moving other entries into it within their own neighbourhoods.
-/

namespace Ydb.LockHashTable

open Lib

/-! ## The table -/

def MAXINT4 : Nat := 2147483647

def MLK_SHRHASH_FOUND_NO_BUCKET : Nat := MAXINT4

def MLK_SHRHASH_NEIGHBORS : Nat := 32

/-- A bucket; it is empty if the index is zero. -/
structure mlk_shrhash where
  shrblk_idx : Nat
  usedmap : BitVec 32
  hash : BitVec 64
deriving DecidableEq

/-- Mark a neighbor. -/
def SET_NEIGHBOR (map : BitVec 32) (offset : Nat) : BitVec 32 := map ||| (1#32 <<< offset)

/-- Unmark a neighbor. -/
def CLEAR_NEIGHBOR (map : BitVec 32) (offset : Nat) : BitVec 32 := map &&& ~~~(1#32 <<< offset)

/-- The control data of a lock table. -/
structure mlk_ctldata where
  max_blkcnt : BitVec 32
  num_blkhash : BitVec 32
  blkcnt : BitVec 32
  gc_needed : Bool
  resize_needed : Bool
  rehash_needed : Bool

/-- The table has buckets, and their indices are integers of 32 bits. -/
structure mlk_pvtctl where
  ctl : mlk_ctldata
  shrhash : Nat → mlk_shrhash
  shrhash_size : Nat
  hash_fail_cnt : Nat
  gc_needed : Bool
  resize_needed : Bool
  rehash_needed : Bool
  some_bucket : 0 < shrhash_size
  few_buckets : shrhash_size ≤ MAXINT4

/-- The bucket an entry belongs to. -/
def homeBucket (num_buckets : Nat) (hash : BitVec 64) : Nat := hash.toNat % num_buckets

/-! ## The search -/

/-- The first free bucket from `fi` on, for so many turns; there is none when the search comes
around to `bi`. -/
def freeLoop (shrhash : Nat → mlk_shrhash) (num_buckets bi : Nat) : Nat → Nat → Option (Option Nat)
  | 0, _ => none
  | turns + 1, fi =>
    if (shrhash fi).shrblk_idx ≠ 0 then
      if (fi + 1) % num_buckets = bi then some none
      else freeLoop shrhash num_buckets bi turns ((fi + 1) % num_buckets)
    else some (some fi)

/-- The earliest used bucket in a map that is not past the free bucket, and how many turns are left. -/
def pullLoop (num_buckets fi : Nat) : Nat → BitVec 32 → Nat → Nat × Nat
  | 0, _, mi => (mi, 0)
  | left + 1, usedmap, mi =>
    if usedmap &&& 1 = 0 ∧ mi ≠ fi then pullLoop num_buckets fi left (usedmap >>> 1) ((mi + 1) % num_buckets)
    else (mi, left + 1)

/-- A bucket `si` with a neighbour `mi` that can be moved to the free bucket. -/
def hopLoop (shrhash : Nat → mlk_shrhash) (num_buckets fi : Nat) : Nat → Nat → Option (Option (Nat × Nat))
  | 0, _ => none
  | turns + 1, si =>
    if si = fi then some none
    else if (shrhash si).usedmap = 0 then hopLoop shrhash num_buckets fi turns ((si + 1) % num_buckets)
    else
      let (mi, left) := pullLoop num_buckets fi MLK_SHRHASH_NEIGHBORS (shrhash si).usedmap si
      if mi ≠ fi ∧ left ≠ 0 then some (some (si, mi))
      else hopLoop shrhash num_buckets fi turns ((si + 1) % num_buckets)

/-- A bucket of the table changes. -/
def setBucket (shrhash : Nat → mlk_shrhash) (i : Nat) (bucket : mlk_shrhash) (j : Nat) : mlk_shrhash :=
  if j = i then bucket else shrhash j

/-- The entry at `mi`, which belongs to `si`, moves to `fi`. -/
def moveBucket (shrhash : Nat → mlk_shrhash) (num_buckets si mi fi : Nat) : Nat → mlk_shrhash :=
  let shrhash := setBucket shrhash fi
    { shrhash fi with shrblk_idx := (shrhash mi).shrblk_idx, hash := (shrhash mi).hash }
  let shrhash := setBucket shrhash mi { shrhash mi with shrblk_idx := 0, hash := 0 }
  let usedmap := CLEAR_NEIGHBOR (shrhash si).usedmap (ringOffset num_buckets si mi)
  setBucket shrhash si
    { shrhash si with usedmap := SET_NEIGHBOR usedmap (ringOffset num_buckets si fi) }

/-- What a search that failed asks for. -/
def searchFailed (pctl : mlk_pvtctl) : mlk_pvtctl :=
  let pctl :=
    if pctl.hash_fail_cnt = 0 then
      { pctl with gc_needed := true, ctl := { pctl.ctl with gc_needed := true } }
    else if pctl.hash_fail_cnt = 1 then
      if pctl.ctl.num_blkhash.toNat > ((pctl.ctl.max_blkcnt - pctl.ctl.blkcnt) * 2).toNat then
        { pctl with rehash_needed := true, ctl := { pctl.ctl with rehash_needed := true } }
      else { pctl with resize_needed := true, ctl := { pctl.ctl with resize_needed := true } }
    else pctl
  { pctl with hash_fail_cnt := pctl.hash_fail_cnt + 1 }

/-- While the free bucket is out of the neighbourhood, a closer one is freed. -/
def closerLoop (bi : Nat) : Nat → mlk_pvtctl → Nat → Option (Nat × mlk_pvtctl)
  | 0, _, _ => none
  | turns + 1, pctl, fi =>
    let num_buckets := pctl.shrhash_size
    if MLK_SHRHASH_NEIGHBORS ≤ ringOffset num_buckets bi fi then
      match hopLoop pctl.shrhash num_buckets fi MLK_SHRHASH_NEIGHBORS
          ((num_buckets + fi - MLK_SHRHASH_NEIGHBORS + 1) % num_buckets) with
      | none => none
      | some none => some (MLK_SHRHASH_FOUND_NO_BUCKET, searchFailed pctl)
      | some (some (si, mi)) =>
        closerLoop bi turns { pctl with shrhash := moveBucket pctl.shrhash num_buckets si mi fi } mi
    else some (fi, pctl)

/-- The index of a free bucket near the one a hash belongs to. The loops have as many turns as
they can need; none of the results is that they were too few. -/
def mlk_shrhash_find_bucket (pctl : mlk_pvtctl) (hash : BitVec 64) : Option (Nat × mlk_pvtctl) :=
  let num_buckets := pctl.shrhash_size
  let bi := homeBucket num_buckets hash
  match freeLoop pctl.shrhash num_buckets bi num_buckets bi with
  | none => none
  | some none => some (MLK_SHRHASH_FOUND_NO_BUCKET, pctl)
  | some (some fi) => closerLoop bi num_buckets pctl fi

/-! ## Insertion -/

/-- Write an entry into a free bucket. -/
def mlk_shrhash_insert (pctl : mlk_pvtctl) (bucket_idx target_idx shrblk_idx : Nat) (hash : BitVec 64) :
    mlk_pvtctl :=
  let num_buckets := pctl.shrhash_size
  let shrhash := setBucket pctl.shrhash target_idx
    { pctl.shrhash target_idx with shrblk_idx := shrblk_idx, hash := hash }
  let bucket := shrhash bucket_idx
  let usedmap := SET_NEIGHBOR bucket.usedmap (ringOffset num_buckets bucket_idx target_idx)
  { pctl with shrhash := setBucket shrhash bucket_idx { bucket with usedmap := usedmap } }

/-- A node enters the table. -/
def mlk_shrhash_add (pctl : mlk_pvtctl) (shrblk_idx : Nat) (hash : BitVec 64) : Option (Bool × mlk_pvtctl) :=
  let bi := homeBucket pctl.shrhash_size hash
  let bucket := pctl.shrhash bi
  if bucket.shrblk_idx = 0 then
    let bucket := ⟨shrblk_idx, SET_NEIGHBOR bucket.usedmap 0, hash⟩
    some (true, { pctl with shrhash := setBucket pctl.shrhash bi bucket })
  else
    match mlk_shrhash_find_bucket pctl hash with
    | none => none
    | some (fi, pctl) =>
      if fi = MLK_SHRHASH_FOUND_NO_BUCKET then some (false, pctl)
      else some (true, mlk_shrhash_insert pctl bi fi shrblk_idx hash)

end Ydb.LockHashTable
