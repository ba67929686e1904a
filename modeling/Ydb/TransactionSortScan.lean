import Ydb.Lib.BatchMerge
import Ydb.TransactionSort

/-!
# Scanning a well-formed buffer of a transaction

The scan notes where the update records of each region begin and end, the greatest update
number, and whether the records are in order already.
-/

namespace Ydb.TransactionSort

open Lib

/-! ## Records -/

/-- The bytes of a record as memory. -/
def ofBytes (r : List UInt8) : ByteMemory := fun i => r.getD i 0

/-- The update number of a record. -/
def updnum (r : List UInt8) : Nat := update_num (ofBytes r) 0

/-- An update record. Its number is not the greatest one of 32 bits. -/
structure IsUpdate (r : List UInt8) : Prop where
  long : 44 ≤ r.length
  length : forwptr (ofBytes r) 0 = r.length
  updates : IS_SET_KILL_ZKILL_ZTWORM_LGTRIG_ZTRIG (jrec_type (ofBytes r) 0) = true
  small : updnum r < 2 ^ 32 - 1

/-- A well-formed TCOM record. -/
structure IsTcom (r : List UInt8) : Prop where
  size : r.length = TCOM_SIZE
  length : forwptr (ofBytes r) 0 = TCOM_SIZE
  commits : jrec_type (ofBytes r) 0 = JRT_TCOM

/-- Whether a record is the first update of its region. -/
def isFirst (r : List UInt8) : Bool := IS_TUPD (jrec_type (ofBytes r) 0)

variable {mem : ByteMemory} {addr : Nat} {r : List UInt8}

theorem read_append {front back : List UInt8} :
    mem.read addr (front ++ back).length = front ++ back ↔
      mem.read addr front.length = front ∧ mem.read (addr + front.length) back.length = back := by
  rw [List.length_append, ByteMemory.read_add]
  constructor
  · intro whole
    exact List.append_inj whole ByteMemory.length_read
  · rintro ⟨left, right⟩
    rw [left, right]

/-- The bytes of a record where it stands. -/
theorem byte_of_read (there : mem.read addr r.length = r) {k : Nat} (inside : k < r.length) :
    mem (addr + k) = ofBytes r (0 + k) := by
  have whole : mem.read addr r.length = r ++ [] := by
    rw [List.append_nil]
    exact there
  rw [ByteMemory.of_read_append whole inside, ofBytes, Nat.zero_add, List.getD_eq_getElem?_getD, List.getElem?_eq_getElem inside]
  rfl

theorem uint2At_of_read (there : mem.read addr r.length = r) {k : Nat} (inside : k + 1 < r.length) :
    uint2At mem (addr + k) = uint2At (ofBytes r) (0 + k) := by
  rw [uint2At, uint2At, byte_of_read there (by omega), Nat.add_assoc, byte_of_read there inside]
  rfl

theorem jrec_type_of_read (there : mem.read addr r.length = r) (long : 0 < r.length) :
    jrec_type mem addr = jrec_type (ofBytes r) 0 :=
  congrArg UInt8.toNat (byte_of_read there long)

theorem forwptr_of_read (there : mem.read addr r.length = r) (long : 3 < r.length) :
    forwptr mem addr = forwptr (ofBytes r) 0 := by
  rw [forwptr, forwptr, uint2At_of_read there (by omega), byte_of_read there long]

theorem update_num_of_read (there : mem.read addr r.length = r) (long : 44 ≤ r.length) :
    update_num mem addr = updnum r := by
  rw [updnum, update_num, update_num, uint2At_of_read there (by omega), uint2At_of_read there (by omega)]

theorem num_participants_of_read (there : mem.read addr r.length = r) (long : 44 ≤ r.length) :
    num_participants mem addr = num_participants (ofBytes r) 0 :=
  uint2At_of_read there (by omega)

/-! ## Turns of the scan -/

/-- The scan gets from one state to another, as long as there are turns for all bytes. -/
def Reaches (buff : ByteMemory) (entries : Nat) (s s' : Scan) : Prop :=
  ∀ turns, s.tlen ≤ turns → ∃ turns', s'.tlen ≤ turns' ∧ scanLoop buff entries s turns = scanLoop buff entries s' turns'

variable {buff : ByteMemory} {entries : Nat} {s s' : Scan}

theorem Reaches.refl (buff : ByteMemory) (entries : Nat) (s : Scan) : Reaches buff entries s s := fun turns enough => ⟨turns, enough, rfl⟩

theorem Reaches.trans {s₁ s₂ s₃ : Scan} (first : Reaches buff entries s₁ s₂) (second : Reaches buff entries s₂ s₃) :
    Reaches buff entries s₁ s₃ := by
  intro turns enough
  obtain ⟨turns', enough', run⟩ := first turns enough
  obtain ⟨turns'', enough'', run'⟩ := second turns' enough'
  exact ⟨turns'', enough'', run.trans run'⟩

theorem Reaches.step (room : JREC_PREFIX_SIZE ≤ s.tlen) (turn : scanRecord buff entries s = .next s')
    (less : s'.tlen < s.tlen) : Reaches buff entries s s' := by
  intro turns enough
  cases turns with
  | zero => omega
  | succ turns =>
    refine ⟨turns, by omega, ?_⟩
    rw [scanLoop, if_pos room, turn]

/-- An update record is taken, while there are entries for the regions. -/
theorem scanRecord_update (there : buff.read s.tb r.length = r) (update : IsUpdate r) (room : r.length ≤ s.tlen)
    (array : isFirst r = true → s.reg_idx < entries) :
    scanRecord buff entries s = .next (advance
      { (if isFirst r then beginRegion s else s) with
        already_sorted := s.already_sorted && decide (s.prev_updnum ≤ updnum r)
        max_updnum := max s.max_updnum (updnum r)
        prev_updnum := updnum r } r.length) := by
  have long := update.long
  have type := jrec_type_of_read there (by omega)
  have length : forwptr buff s.tb = r.length := by rw [forwptr_of_read there (by omega), update.length]
  have number := update_num_of_read there long
  have within : ¬ (IS_TUPD (jrec_type (ofBytes r) 0) = true ∧ entries ≤ s.reg_idx) := fun behind =>
    absurd (array behind.1) (by omega)
  rw [scanRecord, type, length, number, if_neg (by omega), if_pos update.updates, if_neg within]
  rfl

/-- A commit record is taken while there are regions to be committed. -/
theorem scanRecord_tcom (there : buff.read s.tb r.length = r) (tcom : IsTcom r) (room : r.length ≤ s.tlen)
    (balanced : 0 < s.balanced) :
    scanRecord buff entries s = .next (advance
      { s with
        first_tcom_offset := if s.first_tcom_offset = 0 then s.tb else s.first_tcom_offset
        balanced := s.balanced - 1 } r.length) := by
  have size : r.length = 56 := tcom.size
  have type : jrec_type buff s.tb = JRT_TCOM := by
    rw [jrec_type_of_read there (by omega), tcom.commits]
  have length : forwptr buff s.tb = r.length := by
    rw [forwptr_of_read there (by omega), tcom.length, tcom.size]
  have other : ¬ IS_SET_KILL_ZKILL_ZTWORM_LGTRIG_ZTRIG JRT_TCOM = true := by decide
  rw [scanRecord, type, length, if_neg (by omega), if_neg other]
  change (if 0 > s.balanced - 1 then _ else _) = _
  rw [if_neg (by omega)]

/-! ## Update records -/

/-- What the scan knows about the update records so far. -/
structure Scanned (done : List (List UInt8)) (total : Nat) (s : Scan) : Prop where
  tb : s.tb = done.flatten.length
  tlen : s.tlen = total - done.flatten.length
  greatest : ∀ x ∈ done, updnum x ≤ s.max_updnum
  small : s.max_updnum < 2 ^ 32 - 1
  sorted : s.already_sorted = true →
    done.Pairwise (fun x y => updnum x ≤ updnum y) ∧ ∀ x ∈ done, updnum x ≤ s.prev_updnum

/-- What the scan has noted about the first regions. -/
structure Noted (runs : Nat → List (List UInt8)) (regions : Nat) (s : Scan) : Prop where
  reg_idx : s.reg_idx = regions
  balanced : s.balanced = regions
  uncommitted : s.first_tcom_offset = 0
  starts : ∀ j < regions, (s.reg_jrec_info_array j).working_offset = (allOf j runs).flatten.length
  ends : ∀ j, j + 1 < regions → (s.reg_jrec_info_array j).end_offset = (allOf (j + 1) runs).flatten.length

variable {done : List (List UInt8)} {total regions : Nat} {runs : Nat → List (List UInt8)}

/-- One more update record, whatever is noted about its region. -/
theorem Scanned.update (scanned : Scanned done total s) (update : IsUpdate r) (noted : Scan)
    (same : noted.tb = s.tb ∧ noted.tlen = s.tlen) :
    Scanned (done ++ [r]) total (advance
      { noted with
        already_sorted := s.already_sorted && decide (s.prev_updnum ≤ updnum r)
        max_updnum := max s.max_updnum (updnum r)
        prev_updnum := updnum r } r.length) := by
  have small := scanned.small
  have smallNext := update.small
  have tb := scanned.tb
  have tlen := scanned.tlen
  have length : (done ++ [r]).flatten.length = done.flatten.length + r.length := by simp
  constructor
  · change noted.tb + r.length = _
    rw [same.1, length, tb]
  · change noted.tlen - r.length = _
    rw [same.2, length, tlen]
    omega
  · intro x there
    change updnum x ≤ max s.max_updnum (updnum r)
    rcases List.mem_append.mp there with old | new
    · exact Nat.le_trans (scanned.greatest x old) (Nat.le_max_left _ _)
    · rw [List.mem_singleton.mp new]
      exact Nat.le_max_right _ _
  · change max s.max_updnum (updnum r) < _
    omega
  · intro inOrder
    obtain ⟨before, next⟩ := Bool.and_eq_true_iff.mp inOrder
    obtain ⟨pairwise, last⟩ := scanned.sorted before
    have above : ∀ x ∈ done, updnum x ≤ updnum r := fun x there =>
      Nat.le_trans (last x there) (of_decide_eq_true next)
    constructor
    · refine List.pairwise_append.mpr ⟨pairwise, List.pairwise_singleton _ _, fun x there y here => ?_⟩
      rw [List.mem_singleton.mp here]
      exact above x there
    · intro x there
      rcases List.mem_append.mp there with old | new
      · exact above x old
      · rw [List.mem_singleton.mp new]
        exact Nat.le_refl (updnum r)

/-- The scan goes on in a region. -/
theorem scan_rest (rest : List (List UInt8)) (scanned : Scanned done total s) (noted : Noted runs regions s)
    (there : buff.read s.tb rest.flatten.length = rest.flatten) (updates : ∀ x ∈ rest, IsUpdate x)
    (later : ∀ x ∈ rest, isFirst x = false) (room : (done ++ rest).flatten.length ≤ total) :
    ∃ s', Reaches buff entries s s' ∧ Scanned (done ++ rest) total s' ∧ Noted runs regions s' := by
  induction rest generalizing done s with
  | nil =>
    rw [List.append_nil]
    exact ⟨s, Reaches.refl buff entries s, scanned, noted⟩
  | cons x rest ih =>
    rw [List.flatten_cons] at there
    obtain ⟨here, behind⟩ := read_append.mp there
    have update := updates x List.mem_cons_self
    have long := update.long
    have tlen := scanned.tlen
    rw [List.flatten_append, List.flatten_cons, List.length_append, List.length_append] at room
    have other := later x List.mem_cons_self
    have turn : scanRecord buff entries s = _ := scanRecord_update here update (by omega)
      (fun first => absurd (other.symm.trans first) Bool.false_ne_true)
    rw [other, if_neg Bool.false_ne_true] at turn
    have next := scanned.update update s ⟨rfl, rfl⟩
    obtain ⟨s', reaches, scanned', noted'⟩ := ih next
      ⟨noted.reg_idx, noted.balanced, noted.uncommitted, noted.starts, noted.ends⟩ behind
      (fun y member => updates y (List.mem_cons_of_mem _ member))
      (fun y member => later y (List.mem_cons_of_mem _ member)) (by
        simp only [List.flatten_append, List.flatten_cons, List.flatten_nil, List.length_append, List.length_nil]
        omega)
    have prefixSize : JREC_PREFIX_SIZE = 24 := rfl
    refine ⟨s', Reaches.trans (Reaches.step (by omega) turn ?_) reaches, ?_, noted'⟩
    · change s.tlen - x.length < s.tlen
      omega
    · rw [List.append_assoc] at scanned'
      exact scanned'

/-- A region is noted where it begins. -/
theorem Noted.begin (noted : Noted runs regions s) (tb : s.tb = (allOf regions runs).flatten.length) :
    Noted runs (regions + 1) (beginRegion s) := by
  have index := noted.reg_idx
  constructor
  · change s.reg_idx + 1 = _
    rw [index]
  · change s.balanced + 1 = _
    rw [noted.balanced]
    rfl
  · exact noted.uncommitted
  · intro j less
    simp only [beginRegion, index]
    by_cases here : j = regions
    · subst here
      by_cases later : 0 < j
      · rw [if_pos later, Function.update_of_ne (by omega), Function.update_self]
        exact tb
      · rw [if_neg later, Function.update_self]
        exact tb
    · have old := noted.starts j (by omega)
      by_cases later : 0 < regions
      · rw [if_pos later]
        by_cases previous : j = regions - 1
        · rw [previous, Function.update_self, Function.update_of_ne (by omega), ← previous]
          exact old
        · rw [Function.update_of_ne previous, Function.update_of_ne here]
          exact old
      · omega
  · intro j less
    simp only [beginRegion, index]
    rw [if_pos (by omega)]
    by_cases previous : j = regions - 1
    · rw [previous, Function.update_self]
      change s.tb = _
      rw [tb, Nat.sub_add_cancel (by omega)]
    · rw [Function.update_of_ne previous, Function.update_of_ne (by omega)]
      exact noted.ends j (by omega)

/-- The records of a region: the first update, and others. -/
structure IsRegion (run : List (List UInt8)) : Prop where
  updates : ∀ x ∈ run, IsUpdate x
  begins : ∃ first rest, run = first :: rest ∧ isFirst first = true ∧ ∀ x ∈ rest, isFirst x = false

theorem scan_region (scanned : Scanned (allOf regions runs) total s) (noted : Noted runs regions s)
    (region : IsRegion (runs regions)) (array : regions < entries)
    (there : buff.read s.tb (runs regions).flatten.length = (runs regions).flatten)
    (room : (allOf (regions + 1) runs).flatten.length ≤ total) :
    ∃ s', Reaches buff entries s s' ∧ Scanned (allOf (regions + 1) runs) total s' ∧ Noted runs (regions + 1) s' := by
  obtain ⟨first, rest, parts, isFirst, later⟩ := region.begins
  have updates := region.updates
  rw [allOf_succ] at room ⊢
  rw [parts] at there updates room ⊢
  rw [List.flatten_cons] at there
  obtain ⟨here, behind⟩ := read_append.mp there
  have update := updates first List.mem_cons_self
  have long := update.long
  have tlen := scanned.tlen
  have size := room
  rw [List.flatten_append, List.flatten_cons, List.length_append, List.length_append] at size
  have turn := scanRecord_update here update (by omega) fun _ => noted.reg_idx ▸ array
  rw [isFirst, if_pos rfl] at turn
  have next := scanned.update update (beginRegion s) ⟨rfl, rfl⟩
  have began := noted.begin scanned.tb
  obtain ⟨s', reaches, scanned', noted'⟩ := scan_rest rest next
    ⟨began.reg_idx, began.balanced, began.uncommitted, began.starts, began.ends⟩ behind
    (fun y member => updates y (List.mem_cons_of_mem _ member)) later (by
      simp only [List.flatten_append, List.flatten_cons, List.flatten_nil, List.length_append, List.length_nil]
      omega)
  have prefixSize : JREC_PREFIX_SIZE = 24 := rfl
  refine ⟨s', Reaches.trans (Reaches.step (by omega) turn ?_) reaches, ?_, noted'⟩
  · change s.tlen - first.length < s.tlen
    omega
  · rw [List.append_assoc] at scanned'
    exact scanned'

/-- All regions are scanned. -/
theorem scan_regions {n : Nat} (total : Nat) (info : Nat → reg_jrec_info_t) (regular : ∀ i < n, IsRegion (runs i))
    (there : buff.read 0 (allOf n runs).flatten.length = (allOf n runs).flatten)
    (room : (allOf n runs).flatten.length ≤ total) (array : n ≤ entries) :
    ∃ s', Reaches buff entries (.start info total) s' ∧ Scanned (allOf n runs) total s' ∧
      Noted runs n s' := by
  induction n with
  | zero =>
    refine ⟨_, Reaches.refl buff entries _, ⟨rfl, rfl, ?_, by change 0 < 2 ^ 32 - 1; omega, ?_⟩, ⟨rfl, rfl, rfl, ?_, ?_⟩⟩
    · intro x member
      exact absurd member List.not_mem_nil
    · intro _
      exact ⟨.nil, fun x member => absurd member List.not_mem_nil⟩
    · intro j less
      omega
    · intro j less
      omega
  | succ n ih =>
    have parts := there
    have size := room
    rw [allOf_succ, List.flatten_append, read_append] at parts
    rw [allOf_succ, List.flatten_append, List.length_append] at size
    obtain ⟨s₁, reaches₁, scanned₁, noted₁⟩ :=
      ih (fun i less => regular i (by omega)) parts.1 (by omega) (by omega)
    have behind := parts.2
    rw [Nat.zero_add, ← scanned₁.tb] at behind
    obtain ⟨s', reaches', scanned', noted'⟩ := scan_region scanned₁ noted₁ (regular n (by omega)) array behind room
    exact ⟨s', reaches₁.trans reaches', scanned', noted'⟩

/-! ## Commit records -/

/-- Commit records are passed; the place of the first one is noted. -/
theorem scan_tcoms (tcoms : List (List UInt8)) (commits : ∀ x ∈ tcoms, IsTcom x)
    (there : buff.read s.tb tcoms.flatten.length = tcoms.flatten) (room : s.tlen = tcoms.flatten.length)
    (balanced : s.balanced = tcoms.length) (behind : 0 < s.tb) :
    ∃ s', Reaches buff entries s s' ∧ s'.tlen = 0 ∧ s'.balanced = 0 ∧
      s'.first_tcom_offset = (if s.first_tcom_offset = 0 ∧ tcoms ≠ [] then s.tb else s.first_tcom_offset) ∧
      s'.reg_jrec_info_array = s.reg_jrec_info_array ∧ s'.reg_idx = s.reg_idx ∧ s'.max_updnum = s.max_updnum ∧
      s'.already_sorted = s.already_sorted := by
  induction tcoms generalizing s with
  | nil =>
    refine ⟨s, Reaches.refl buff entries s, room, balanced, ?_, rfl, rfl, rfl, rfl⟩
    rw [if_neg (by simp)]
  | cons x tcoms ih =>
    rw [List.flatten_cons] at there room
    obtain ⟨here, rest⟩ := read_append.mp there
    have tcom := commits x List.mem_cons_self
    have size : x.length = 56 := tcom.size
    rw [List.length_append] at room
    rw [List.length_cons] at balanced
    have turn : scanRecord buff entries s = _ := scanRecord_tcom here tcom (by omega) (by omega)
    obtain ⟨s', reaches, done, all, first, info, index, greatest, inOrder⟩ :=
      ih (s := advance
        { s with
          first_tcom_offset := if s.first_tcom_offset = 0 then s.tb else s.first_tcom_offset
          balanced := s.balanced - 1 } x.length)
        (fun y member => commits y (List.mem_cons_of_mem _ member)) rest
        (by change s.tlen - x.length = _; omega) (by change s.balanced - 1 = _; omega)
        (by change 0 < s.tb + x.length; omega)
    have prefixSize : JREC_PREFIX_SIZE = 24 := rfl
    refine ⟨s', Reaches.trans (Reaches.step (by omega) turn ?_) reaches, done, all, ?_, info, index, greatest,
      inOrder⟩
    · change s.tlen - x.length < s.tlen
      omega
    · rw [first]
      change (if (if s.first_tcom_offset = 0 then s.tb else s.first_tcom_offset) = 0 ∧ tcoms ≠ [] then
          s.tb + x.length else if s.first_tcom_offset = 0 then s.tb else s.first_tcom_offset) = _
      by_cases none : s.first_tcom_offset = 0
      · rw [if_pos none, if_neg (by omega), if_pos ⟨none, by simp⟩]
      · rw [if_neg none, if_neg (fun both => none both.1), if_neg (fun both => none both.1)]

end Ydb.TransactionSort
