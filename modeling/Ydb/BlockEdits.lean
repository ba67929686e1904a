import Ydb.BlockRecords
import Ydb.BlockUpdate

/-!
# Changing a record in place

A record whose data change keeps its key and its compression count. The records in front of it stay where
they are, those behind it move together, and the block stays well formed.
-/

namespace Ydb.BlockUpdate

open Lib

/-! ## The fields of a record header -/

theorem toNat_byte {n : Nat} (small : n < 256) : (UInt8.ofNat n).toNat = n :=
  UInt8.toNat_ofNat_of_lt' small

theorem EVAL_CMPC_le (buffaddr : ByteMemory) (rp : Nat) : EVAL_CMPC buffaddr rp ≤ 1020 := by
  have first := (buffaddr (rp + 2)).toNat_lt
  have second := (buffaddr (rp + 3)).toNat_lt
  unfold EVAL_CMPC
  dsimp only
  split <;> omega

/-- A compression count is read as it was set. -/
theorem EVAL_SET_CMPC {buffaddr : ByteMemory} {rp val : Nat} {cmpc2 : UInt8} (small : val ≤ 1020)
    (first : buffaddr (rp + 2) = (SET_CMPC cmpc2 val).1)
    (second : buffaddr (rp + 3) = (SET_CMPC cmpc2 val).2) : EVAL_CMPC buffaddr rp = val := by
  unfold EVAL_CMPC
  rw [first, second]
  unfold SET_CMPC
  by_cases one : 253 > val
  · have byte : (UInt8.ofNat val).toNat = val := toNat_byte (by omega)
    rw [if_pos one]
    dsimp only
    rw [byte, if_pos one]
  · have byte : (UInt8.ofNat (253 + (val - 253) / 256)).toNat = 253 + (val - 253) / 256 :=
      toNat_byte (by omega)
    have byte' : (UInt8.ofNat ((val - 253) % 256)).toNat = (val - 253) % 256 :=
      toNat_byte (by omega)
    rw [if_neg one]
    dsimp only
    rw [byte, byte', if_neg (by omega)]
    omega

theorem rsiz_of_bytes {buffaddr : ByteMemory} {rp size : Nat} (small : size < 2 ^ 16)
    (first : buffaddr rp = UInt8.ofNat size) (second : buffaddr (rp + 1) = UInt8.ofNat (size / 256)) :
    rsiz buffaddr rp = size := by
  have low : (UInt8.ofNat size).toNat = size % 256 := UInt8.toNat_ofNat
  have high : (UInt8.ofNat (size / 256)).toNat = size / 256 := toNat_byte (by omega)
  unfold rsiz
  rw [first, second, low, high]
  omega

/-! ## Records around one record -/

variable {buffaddr built : ByteMemory} {pTop rp last : Nat} {prev : List UInt8} {r : BlockRec}
variable {before after recs : List BlockRec}

/-- What a leaf says of one of its records. -/
structure LeafRecord (buffaddr : ByteMemory) (prev : List UInt8) (r : BlockRec) : Prop where
  wellFormed : WellFormedKey r.key
  short : r.key.length ≤ MAX_KEY_SZ
  order : prev < r.key
  cmpc : EVAL_CMPC buffaddr r.offset = commonPrefix prev r.key
  bytes : buffaddr.read (r.offset + SIZEOF_rec_hdr) (r.key.length - commonPrefix prev r.key) =
    r.key.drop (commonPrefix prev r.key)
  size : SIZEOF_rec_hdr + (r.key.length - commonPrefix prev r.key) ≤ rsiz buffaddr r.offset

theorem LeafRecord.cons (record : LeafRecord buffaddr prev r)
    (more : Records buffaddr true pTop r.key (r.offset + rsiz buffaddr r.offset) recs last) :
    Records buffaddr true pTop prev r.offset (r :: recs) last :=
  .record record.wellFormed record.short record.order record.cmpc record.bytes
    (by rw [if_pos rfl, Nat.add_zero]; exact record.size) more

/-- The key of the last record of a list. -/
def lastKey (prev : List UInt8) (recs : List BlockRec) : List UInt8 :=
  recs.getLast?.elim prev BlockRec.key

theorem lastKey_cons : lastKey prev (r :: recs) = lastKey r.key recs := getLast?_elim_cons _ _ _ _

/-- The records of a leaf around one of them. -/
theorem Records.around (records : Records buffaddr true pTop prev rp (before ++ r :: after) last) :
    LeafRecord buffaddr (lastKey prev before) r ∧
      Records buffaddr true pTop r.key (r.offset + rsiz buffaddr r.offset) after last ∧
      rp ≤ r.offset ∧ ∀ x ∈ before, rp ≤ x.offset ∧ SIZEOF_rec_hdr ≤ rsiz buffaddr x.offset ∧
        x.offset + rsiz buffaddr x.offset ≤ r.offset ∧ x.key < r.key := by
  induction before generalizing prev rp with
  | nil =>
    cases records with
    | record wellFormed short order cmpc bytes size more =>
      rw [if_pos rfl, Nat.add_zero] at size
      exact ⟨⟨wellFormed, short, order, cmpc, bytes, size⟩, more, Nat.le_refl _,
        fun x member => absurd member List.not_mem_nil⟩
  | cons y before ih =>
    cases records with
    | record wellFormed short order cmpc bytes size more =>
      obtain ⟨here, behind, above, inFront⟩ := ih more
      rw [if_pos rfl, Nat.add_zero] at size
      rw [lastKey_cons]
      refine ⟨here, behind, by omega, List.forall_mem_cons.mpr ⟨?_, ?_⟩⟩
      · refine ⟨Nat.le_refl _, Nat.le_trans (Nat.le_add_right _ _) size, above, ?_⟩
        cases before with
        | nil => exact here.order
        | cons z before =>
          have ordered : ∀ {prev rp}, Records buffaddr true pTop prev rp (z :: before ++ r :: after) last →
              prev < z.key := by
            intro prev rp records
            cases records with
            | record _ _ order _ _ _ _ => exact order
          exact List.lt_trans (ordered more) (inFront z List.mem_cons_self).2.2.2
      · intro x member
        obtain ⟨low, rest⟩ := inFront x member
        exact ⟨by omega, rest⟩

/-- A record stands behind at least as many bytes as its predecessor's key has. -/
theorem Records.offset_ge (records : Records buffaddr true pTop prev rp (before ++ r :: after) last)
    {base : Nat} (room : base + prev.length ≤ rp) : base + (lastKey prev before).length ≤ r.offset := by
  induction before generalizing prev rp with
  | nil =>
    cases records with
    | record => exact room
  | cons y before ih =>
    cases records with
    | @record _ key _ _ _ _ _ _ _ _ size more =>
      rw [lastKey_cons]
      apply ih more
      have shared := commonPrefix_le prev key
      rw [if_pos rfl, Nat.add_zero] at size
      omega

/-- The place of a record that moves. -/
def shifted (d : Int) (r : BlockRec) : BlockRec := { r with offset := (r.offset + d).toNat }

theorem rsiz_congr {a b : Nat} (first : built b = buffaddr a) (second : built (b + 1) = buffaddr (a + 1)) :
    rsiz built b = rsiz buffaddr a := by
  unfold rsiz
  rw [first, second]

theorem EVAL_CMPC_congr {a b : Nat} (first : built (b + 2) = buffaddr (a + 2))
    (second : built (b + 3) = buffaddr (a + 3)) : EVAL_CMPC built b = EVAL_CMPC buffaddr a := by
  unfold EVAL_CMPC
  rw [first, second]

/-- Records that move together stay records. -/
theorem Records.shift (records : Records buffaddr true pTop prev rp recs last) {d : Int}
    (inside : 0 ≤ rp + d) (same : ∀ a, rp ≤ a → a < pTop → built (a + d).toNat = buffaddr a) :
    Records built true (pTop + d).toNat prev (rp + d).toNat (recs.map (shifted d)) (last + d).toNat := by
  generalize leaf : true = level0 at records
  induction records with
  | top _ => exact .top leaf.symm
  | star index =>
    subst leaf
    cases index
  | @record prev key rp last recs wellFormed short order cmpc bytes size more ih =>
    subst leaf
    have upto := more.le_top
    rw [if_pos rfl, Nat.add_zero] at size
    have header : 4 ≤ rsiz buffaddr rp := Nat.le_trans (Nat.le_add_right _ _) size
    have moved : ∀ k < rsiz buffaddr rp, built ((rp + d).toNat + k) = buffaddr (rp + k) := by
      intro k less
      rw [← same (rp + k) (by omega) (by omega)]
      congr 1
      omega
    have sameSize : rsiz built (rp + d).toNat = rsiz buffaddr rp :=
      rsiz_congr (moved 0 (by omega)) (moved 1 (by omega))
    have sameCount : EVAL_CMPC built (rp + d).toNat = EVAL_CMPC buffaddr rp :=
      EVAL_CMPC_congr (moved 2 (by omega)) (moved 3 (by omega))
    have place : ((rp + rsiz buffaddr rp : Nat) + d).toNat = (rp + d).toNat + rsiz built (rp + d).toNat := by
      rw [sameSize]
      omega
    rw [List.map_cons]
    apply LeafRecord.cons (r := shifted d ⟨rp, key⟩)
    · refine ⟨wellFormed, short, order, sameCount.trans cmpc, ?_, ?_⟩
      · refine Eq.trans (ByteMemory.read_congr ?_) bytes
        intro i less
        have within : SIZEOF_rec_hdr + i < rsiz buffaddr rp := Nat.lt_of_lt_of_le
          (Nat.add_lt_add_left less _) size
        have there := moved (SIZEOF_rec_hdr + i) within
        rw [← Nat.add_assoc, ← Nat.add_assoc] at there
        exact there
      · exact Nat.le_trans size (Nat.le_of_eq sameSize.symm)
    · have behind := ih (by omega) (fun a low => same a (by omega))
      rw [place] at behind
      exact behind

/-- Records in front of an unchanged place stay records. -/
theorem Records.replace {after' : List BlockRec} {pTop' last' : Nat}
    (records : Records buffaddr true pTop prev rp (before ++ r :: after) last)
    (same : ∀ a, rp ≤ a → a < r.offset → built a = buffaddr a)
    (rest : Records built true pTop' (lastKey prev before) r.offset (r :: after') last') :
    Records built true pTop' prev rp (before ++ r :: after') last' := by
  induction before generalizing prev rp with
  | nil =>
    cases records with
    | record => exact rest
  | cons y before ih =>
    obtain ⟨_, _, _, inFront⟩ := Records.around records
    obtain ⟨_, header, upto, _⟩ := inFront y List.mem_cons_self
    cases records with
    | @record _ key _ _ _ wellFormed short order cmpc bytes size more =>
      rw [lastKey_cons] at rest
      rw [if_pos rfl, Nat.add_zero] at size
      dsimp only at header upto
      unfold SIZEOF_rec_hdr at header
      have stays : ∀ k < rsiz buffaddr rp, built (rp + k) = buffaddr (rp + k) := fun k less =>
        same (rp + k) (Nat.le_add_right _ _) (by omega)
      have sameSize : rsiz built rp = rsiz buffaddr rp :=
        rsiz_congr (stays 0 (by omega)) (stays 1 (by omega))
      apply LeafRecord.cons (r := ⟨rp, key⟩)
      · refine ⟨wellFormed, short, order, ?_, ?_, ?_⟩
        · exact (EVAL_CMPC_congr (stays 2 (by omega)) (stays 3 (by omega))).trans cmpc
        · refine Eq.trans (ByteMemory.read_congr ?_) bytes
          intro i less
          have there := stays (SIZEOF_rec_hdr + i) (Nat.lt_of_lt_of_le (Nat.add_lt_add_left less _) size)
          rw [← Nat.add_assoc] at there
          exact there
        · exact Nat.le_trans size (Nat.le_of_eq sameSize.symm)
      · dsimp only
        rw [sameSize]
        exact ih more (fun a low => same a (by omega)) rest

end Ydb.BlockUpdate
