import Ydb.BlockSearch
import Mathlib.Data.List.TakeWhile

/-!
# Searches in well-formed blocks

In a well-formed block the keys increase, each compression count is the length of the
beginning that a key shares with the one before, and an index block ends with a record
without a key, the star record. The search ends at the first record that is not below the
target, with the exact number of bytes that the target shares with the keys around it.
-/

namespace Ydb

open Lib

/-! ## Well-formed blocks -/

/-- A record with its expanded key. -/
structure BlockRec where
  offset : Nat
  key : List UInt8

/-- The records from `rp` on, behind a record with the key `prev`. The last offset is that
of the star record of an index block, or the top of a leaf. -/
inductive Records (buffaddr : ByteMemory) (level0 : Bool) (pTop : Nat) :
    List UInt8 → Nat → List BlockRec → Nat → Prop
  | top {prev : List UInt8} (leaf : level0 = true) : Records buffaddr level0 pTop prev pTop [] pTop
  | star {prev : List UInt8} {rp : Nat} (index : level0 = false)
      (size : rsiz buffaddr rp = BSTAR_REC_SIZE) (cmpc : EVAL_CMPC buffaddr rp = 0)
      (last : rp + BSTAR_REC_SIZE = pTop) : Records buffaddr level0 pTop prev rp [] rp
  | record {prev key : List UInt8} {rp last : Nat} {recs : List BlockRec}
      (wellFormed : WellFormedKey key) (short : key.length ≤ MAX_KEY_SZ) (order : prev < key)
      (cmpc : EVAL_CMPC buffaddr rp = commonPrefix prev key)
      (bytes : buffaddr.read (rp + SIZEOF_rec_hdr) (key.length - commonPrefix prev key) =
        key.drop (commonPrefix prev key))
      (size : SIZEOF_rec_hdr + (key.length - commonPrefix prev key) +
        (if level0 then 0 else SIZEOF_block_id) ≤ rsiz buffaddr rp)
      (more : Records buffaddr level0 pTop key (rp + rsiz buffaddr rp) recs last) :
      Records buffaddr level0 pTop prev rp (⟨rp, key⟩ :: recs) last

theorem Records.le_top {buffaddr : ByteMemory} {level0 : Bool} {pTop rp last : Nat}
    {prev : List UInt8} {recs : List BlockRec}
    (records : Records buffaddr level0 pTop prev rp recs last) : rp ≤ pTop := by
  induction records with
  | top => exact le_rfl
  | star _ _ _ last => omega
  | record _ _ _ _ _ _ _ ih => omega

/-- A block whose records are those of `recs`. -/
structure WellFormedBlock (blk_size : Nat) (buffaddr : ByteMemory) (recs : List BlockRec)
    (last : Nat) : Prop where
  fits : bsiz buffaddr ≤ blk_size
  small : blk_size ≤ MAX_DB_BLK_SIZE
  records : Records buffaddr (levl buffaddr = 0) (bsiz buffaddr) [] SIZEOF_blk_hdr recs last

/-- A key for which a block is searched. -/
structure WellFormedTarget (pKey : KeyBuffer) : Prop where
  wellFormed : WellFormedKey pKey.bytes
  short : pKey.bytes.length ≤ MAX_KEY_SZ

theorem WellFormedKey.length_ge {key : List UInt8} (wellFormed : WellFormedKey key) :
    3 ≤ key.length := by
  obtain ⟨body, rfl, _⟩ := wellFormed.ends
  match body with
  | [] => exact absurd rfl wellFormed.starts
  | _ :: _ => simp

/-- Of two keys in order the smaller one does not end where they part. -/
theorem WellFormedKey.parts {a b : List UInt8} (left : WellFormedKey a) (right : WellFormedKey b)
    {n : Nat} (parts : PartsAt n a b) : ∃ x y, a[n]? = some x ∧ b[n]? = some y ∧ x < y := by
  obtain ⟨y, found, smaller⟩ := parts.differ
  match ends : a[n]? with
  | some x => exact ⟨x, y, rfl, found, smaller x ends⟩
  | none =>
    -- a key that ends here is the beginning of the other one
    have short : a.length ≤ n := List.getElem?_eq_none_iff.mp ends
    have begins : a <+: b := by
      rw [List.prefix_iff_getElem?]
      intro i less
      rw [← parts.agree i (Nat.lt_of_lt_of_le less short), List.getElem?_eq_getElem less]
    have same := left.eq_of_prefix right begins
    subst same
    exact absurd parts.lt (List.lt_irrefl a)

/-! ## Comparing -/

/-- The bytes of the target are equal so far, and one is compared at a time. -/
theorem compareTarget_same_byte {target buffaddr : ByteMemory} {pCurrTarg pRec : Nat}
    (equal : target pCurrTarg = buffaddr pRec) (len : Nat) :
    compareTarget target buffaddr pCurrTarg pRec (len + 1) =
      compareTarget target buffaddr (pCurrTarg + 1) (pRec + 1) len := by
  rw [compareTarget, equal, sub_self]
  rfl

theorem compareTarget_same {target buffaddr : ByteMemory} {pCurrTarg pRec len : Nat}
    (same : ∀ i < len, target (pCurrTarg + i) = buffaddr (pRec + i)) :
    compareTarget target buffaddr pCurrTarg pRec len = (0, pCurrTarg + len, 0) := by
  induction len generalizing pCurrTarg pRec with
  | zero => rfl
  | succ len ih =>
    have shift : ∀ p i, p + 1 + i = p + (i + 1) := fun p i => by omega
    have equal : target pCurrTarg = buffaddr pRec := same 0 (Nat.succ_pos len)
    rw [compareTarget_same_byte equal, ih, shift]
    intro i less
    rw [shift, shift]
    exact same (i + 1) (Nat.succ_lt_succ less)

/-- The comparison stops at the first difference. -/
theorem compareTarget_differ {target buffaddr : ByteMemory} {pCurrTarg pRec k len : Nat}
    (same : ∀ i < k, target (pCurrTarg + i) = buffaddr (pRec + i))
    (differ : target (pCurrTarg + k) ≠ buffaddr (pRec + k)) (inside : k < len) :
    compareTarget target buffaddr pCurrTarg pRec len =
      (((target (pCurrTarg + k)).toNat : Int) - (buffaddr (pRec + k)).toNat, pCurrTarg + k,
        len - k) := by
  induction k generalizing pCurrTarg pRec len with
  | zero =>
    obtain ⟨len, rfl⟩ : ∃ n, len = n + 1 := ⟨len - 1, by omega⟩
    rw [compareTarget]
    refine if_pos fun zero => differ (UInt8.toNat_inj.mp ?_)
    simp only [Nat.add_zero]
    omega
  | succ k ih =>
    obtain ⟨len, rfl⟩ : ∃ n, len = n + 1 := ⟨len - 1, by omega⟩
    have shift : ∀ p i, p + (i + 1) = p + 1 + i := fun p i => by omega
    have equal : target pCurrTarg = buffaddr pRec := same 0 (Nat.succ_pos k)
    rw [compareTarget_same_byte equal, shift _ k, shift pRec k, Nat.add_sub_add_right]
    rw [shift _ k, shift pRec k] at differ
    apply ih _ differ (Nat.lt_of_succ_lt_succ inside)
    intro i less
    rw [← shift, ← shift]
    exact same (i + 1) (Nat.succ_lt_succ less)

/-- How a key stands against the target that it agrees with on `m` bytes, when the rest of
the key is stored at `pRec`. -/
theorem compareTarget_key {target buffaddr : ByteMemory} {t key : List UInt8} {m pRec : Nat}
    (targetBytes : target.read 0 t.length = t) (wellFormedTarget : WellFormedKey t)
    (wellFormed : WellFormedKey key) (agree : ∀ i < m, t[i]? = key[i]?) (short : m < key.length)
    (bytes : buffaddr.read pRec (key.length - m) = key.drop m) :
    (∃ n, PartsAt n key t ∧ m ≤ n ∧ ∃ nFlg, 0 < nFlg ∧
      compareTarget target buffaddr m pRec (t.length - m) = (nFlg, n, t.length - n)) ∨
    (key = t ∧ compareTarget target buffaddr m pRec (t.length - m) = (0, t.length, 0)) ∨
    ∃ n, PartsAt n t key ∧ ∃ nFlg left, nFlg < 0 ∧
      compareTarget target buffaddr m pRec (t.length - m) = (nFlg, n, left) := by
  have targetAt : ∀ i < t.length, t[i]? = some (target i) := by
    intro i less
    have found : (target.read 0 t.length)[i]? = some (target (0 + i)) := ByteMemory.read_getElem? less
    rwa [targetBytes, Nat.zero_add] at found
  have keyAt : ∀ k, m + k < key.length → key[m + k]? = some (buffaddr (pRec + k)) := by
    intro k less
    have found : (buffaddr.read pRec (key.length - m))[k]? = some (buffaddr (pRec + k)) :=
      ByteMemory.read_getElem? (by omega)
    rwa [bytes, List.getElem?_drop] at found
  have same : ∀ n, (∀ i < n, t[i]? = key[i]?) → n ≤ t.length → n ≤ key.length →
      ∀ k < n - m, target (m + k) = buffaddr (pRec + k) := by
    intro n upTo left right k less
    have equal := upTo (m + k) (by omega)
    rw [targetAt _ (by omega), keyAt k (by omega)] at equal
    exact Option.some.inj equal
  have parted : ∀ n x y, m ≤ n → (∀ i < n, t[i]? = key[i]?) → t[n]? = some x → key[n]? = some y →
      x ≠ y → compareTarget target buffaddr m pRec (t.length - m) =
        ((x.toNat : Int) - y.toNat, n, t.length - n) := by
    intro n x y above upTo left right differ
    have insideTarget := (List.getElem?_eq_some_iff.mp left).1
    have insideKey := (List.getElem?_eq_some_iff.mp right).1
    have place : m + (n - m) = n := by omega
    rw [targetAt n insideTarget] at left
    have key' := keyAt (n - m) (by omega)
    rw [place, right] at key'
    obtain rfl := Option.some.inj left
    obtain rfl := Option.some.inj key'
    have stopped := compareTarget_differ (same n upTo (by omega) (by omega))
      (by rw [place]; exact differ) (show n - m < t.length - m by omega)
    rw [stopped, place]
    congr 2
    omega
  -- a position before `m` is one at which both agree
  have above : ∀ n x y, t[n]? = some x → key[n]? = some y → x ≠ y → m ≤ n := by
    intro n x y left right differ
    by_contra before
    have equal := agree n (by omega)
    rw [left, right] at equal
    exact differ (Option.some.inj equal)
  by_cases below : key < t
  · obtain ⟨n, parts⟩ := exists_partsAt below
    obtain ⟨x, y, left, right, smaller⟩ := wellFormed.parts wellFormedTarget parts
    have differ : y ≠ x := fun equal => by
      rw [equal] at smaller
      exact UInt8.lt_irrefl _ smaller
    have later := above n y x right left differ
    refine .inl ⟨n, parts, later, (y.toNat : Int) - x.toNat, ?_, ?_⟩
    · have := UInt8.lt_iff_toNat_lt.mp smaller
      omega
    · exact parted n y x later (fun i less => (parts.agree i less).symm) right left differ
  · by_cases beyond : t < key
    · obtain ⟨n, parts⟩ := exists_partsAt beyond
      obtain ⟨x, y, left, right, smaller⟩ := wellFormedTarget.parts wellFormed parts
      have differ : x ≠ y := fun equal => by
        rw [equal] at smaller
        exact UInt8.lt_irrefl _ smaller
      have later := above n x y left right differ
      refine .inr (.inr ⟨n, parts, (x.toNat : Int) - y.toNat, t.length - n, ?_, ?_⟩)
      · have := UInt8.lt_iff_toNat_lt.mp smaller
        omega
      · exact parted n x y later parts.agree left right differ
    · have equal : key = t := List.le_antisymm (List.not_lt.mp beyond) (List.not_lt.mp below)
      subst equal
      refine .inr (.inl ⟨rfl, ?_⟩)
      rw [compareTarget_same (same key.length (fun _ _ => rfl) le_rfl le_rfl),
        Nat.add_sub_cancel' (le_of_lt short)]

/-- A key and the one before it part in front of the delimiters of the key. -/
theorem WellFormedKey.parts_le {n : Nat} {prev key : List UInt8} (wellFormed : WellFormedKey key)
    (grammar : prev = [] ∨ WellFormedKey prev) (parts : PartsAt n prev key) :
    n + 2 ≤ key.length := by
  have positive : ∃ y, key[n]? = some y ∧ y ≠ KEY_DELIMITER := by
    rcases grammar with rfl | grammar
    · have none : n = 0 := by
        by_contra more
        have impossible := parts.agree 0 (by omega)
        rw [List.getElem?_nil, eq_comm, List.getElem?_eq_none_iff] at impossible
        have := parts.length_right
        omega
      subst none
      obtain ⟨y, found, _⟩ := parts.differ
      refine ⟨y, found, fun delimiter => wellFormed.starts ?_⟩
      rw [List.head?_eq_getElem?, found, delimiter]
    · obtain ⟨x, y, _, found, smaller⟩ := grammar.parts wellFormed parts
      refine ⟨y, found, fun delimiter => ?_⟩
      rw [delimiter] at smaller
      exact absurd smaller (by simp [KEY_DELIMITER])
  obtain ⟨y, found, other⟩ := positive
  by_contra short
  obtain ⟨body, rfl, _⟩ := wellFormed.ends
  have inside := parts.length_right
  simp only [List.length_append, List.length_cons, List.length_nil] at short inside
  rw [List.getElem?_append_right (by omega)] at found
  have place : n - body.length = 0 ∨ n - body.length = 1 := by omega
  rcases place with place | place
  · rw [place] at found
    exact other (by simpa using found.symm)
  · rw [place] at found
    exact other (by simpa using found.symm)

/-! ## Expanding the previous key -/

/-- The variables hold a key: a beginning in `gv_altkey`, the rest somewhere in memory. -/
structure PrevKeyVars.Describes (p : PrevKeyVars) (pTop : Nat) (key : List UInt8) : Prop where
  room : MAX_KEY_SZ ≤ p.altkey.top
  first : p.first_iteration = true → key.length ≤ p.prevKeyCmpLen + 2
  parts : (key = [] ∧ p.prevKeyUnCmp = none ∧ p.prevKeyCmpLen = 0) ∨
    ∃ source addr, p.prevKeyUnCmp = some (source, addr) ∧ p.prevKeyCmpLen + 2 ≤ key.length ∧
      p.altkey.base.read 0 p.prevKeyCmpLen = key.take p.prevKeyCmpLen ∧
      source.read addr (key.length - p.prevKeyCmpLen) = key.drop p.prevKeyCmpLen ∧
      addr + (key.length - p.prevKeyCmpLen) ≤ pTop

theorem PartsAt.take_eq {n : Nat} {a b : List UInt8} (parts : PartsAt n a b) : a.take n = b.take n := by
  apply List.ext_getElem?
  intro i
  rw [List.getElem?_take, List.getElem?_take]
  split
  · exact parts.agree i ‹_›
  · rfl

/-- The turn of the loop brings the variables from a key to the next one. -/
theorem PrevKeyVars.turn_describes {p : PrevKeyVars} {buffaddr : ByteMemory} {v : SearchVars}
    {prev key : List UInt8} {pTop : Nat} (describes : p.Describes pTop prev)
    (grammar : prev = [] ∨ WellFormedKey prev) (wellFormed : WellFormedKey key)
    (short : key.length ≤ MAX_KEY_SZ) (parts : PartsAt v.nTmp prev key) (inside : v.pRecBase ≠ 0)
    (bytes : buffaddr.read (v.pRecBase + SIZEOF_rec_hdr) (key.length - v.nTmp) = key.drop v.nTmp)
    (fits : v.pRecBase + SIZEOF_rec_hdr + (key.length - v.nTmp) ≤ pTop) :
    ∃ q, p.turn buffaddr v = .ok q ∧ q.Describes pTop key := by
  have inner := wellFormed.parts_le grammar parts
  unfold PrevKeyVars.turn
  rw [if_neg inside]
  dsimp only
  by_cases copies : v.nTmp > p.prevKeyCmpLen
  · rw [if_pos copies]
    rcases describes.parts with ⟨rfl, none, zero⟩ | ⟨source, addr, some, within, front, rest, _⟩
    · -- nothing is shared with the first key
      have impossible := parts.agree 0 (by omega)
      rw [List.getElem?_nil, eq_comm, List.getElem?_eq_none_iff] at impossible
      omega
    · have prevLong : v.nTmp < prev.length := by
        rcases grammar with rfl | grammar
        · have impossible := parts.agree 0 (by omega)
          rw [List.getElem?_nil, eq_comm, List.getElem?_eq_none_iff] at impossible
          omega
        · obtain ⟨x, _, found, _⟩ := grammar.parts wellFormed parts
          exact (List.getElem?_eq_some_iff.mp found).1
      rw [some]
      dsimp only
      have allowed : ¬ (v.nTmp ≥ p.altkey.top ∨
          (p.first_iteration = true ∧ v.nTmp > p.prevKeyCmpLen + 1)) := by
        rintro (full | ⟨first, far⟩)
        · have := describes.room
          omega
        · have := describes.first first
          omega
      rw [if_neg allowed]
      refine ⟨_, rfl, describes.room, nofun, .inr ⟨_, _, rfl, inner, ?_, bytes, fits⟩⟩
      show (p.altkey.base.store p.prevKeyCmpLen
        (source.read addr (v.nTmp - p.prevKeyCmpLen))).read 0 v.nTmp = key.take v.nTmp
      have copied : source.read addr (v.nTmp - p.prevKeyCmpLen) =
          (prev.drop p.prevKeyCmpLen).take (v.nTmp - p.prevKeyCmpLen) := by
        rw [← rest]
        exact ByteMemory.read_take (by omega)
      have whole : p.prevKeyCmpLen + (v.nTmp - p.prevKeyCmpLen) = v.nTmp := by omega
      have written := ByteMemory.read_store p.altkey.base p.prevKeyCmpLen
        (source.read addr (v.nTmp - p.prevKeyCmpLen))
      rw [ByteMemory.length_read] at written
      rw [← whole, ByteMemory.read_add, whole, Nat.zero_add, written,
        ByteMemory.read_store_before (Nat.le_of_eq (Nat.zero_add _)), front, copied,
        ← List.take_add, whole, PartsAt.take_eq parts]
  · rw [if_neg copies]
    refine ⟨_, rfl, describes.room, nofun, .inr ⟨_, _, rfl, inner, ?_, bytes, fits⟩⟩
    show p.altkey.base.read 0 v.nTmp = key.take v.nTmp
    rcases describes.parts with ⟨_, _, zero⟩ | ⟨_, _, _, _, front, _, _⟩
    · have none : v.nTmp = 0 := by omega
      rw [none]
      rfl
    · rw [ByteMemory.read_take (show v.nTmp ≤ p.prevKeyCmpLen by omega), front, List.take_take,
        Nat.min_eq_left (by omega), PartsAt.take_eq parts]

theorem byte_of_read {mem : ByteMemory} {addr len : Nat} {ch : UInt8} {rest : List UInt8}
    (bytes : mem.read addr len = ch :: rest) : mem addr = ch := by
  have split : mem.read addr len = [] ++ ch :: rest := bytes
  exact ByteMemory.of_read split

/-- The scan finds the second of the delimiters that end a key. -/
theorem secondDelimiter_eq {mem : ByteMemory} {front : List UInt8} {addr pTop turns : Nat}
    (bytes : mem.read addr (front.length + 2) = front ++ [KEY_DELIMITER, KEY_DELIMITER])
    (chain : (front ++ [KEY_DELIMITER]).IsChain NotBothDelimiters)
    (inside : addr + front.length < pTop) (enough : front.length < turns) :
    secondDelimiter mem pTop turns addr = some (addr + front.length + 1) := by
  induction front generalizing addr turns with
  | nil =>
    obtain ⟨turns, rfl⟩ : ∃ n, turns = n + 1 := ⟨turns - 1, by omega⟩
    simp only [ByteMemory.read, List.length_nil, List.range_succ, List.nil_append] at bytes
    simp at bytes
    rw [secondDelimiter, if_neg (by simp at inside; omega), if_pos ⟨bytes.1, bytes.2⟩]
    rfl
  | cons ch front ih =>
    obtain ⟨turns, rfl⟩ : ∃ n, turns = n + 1 := ⟨turns - 1, by omega⟩
    rw [List.length_cons] at inside enough bytes
    have tail : mem.read (addr + 1) (front.length + 2) = front ++ [KEY_DELIMITER, KEY_DELIMITER] := by
      have dropped := ByteMemory.read_drop mem addr (show 1 ≤ front.length + 1 + 2 by omega)
      rw [bytes] at dropped
      exact dropped
    have first : mem addr = ch := byte_of_read bytes
    have apart : ¬ (mem addr = KEY_DELIMITER ∧ mem (addr + 1) = KEY_DELIMITER) := by
      rintro ⟨left, right⟩
      cases front with
      | nil =>
        have both := List.isChain_pair.mp chain
        exact both.elim (fun other => other (first.symm.trans left)) fun other => other rfl
      | cons next front =>
        have second : mem (addr + 1) = next := byte_of_read tail
        have both := (List.isChain_cons_cons.mp chain).1
        exact both.elim (fun other => other (first.symm.trans left))
          fun other => other (second.symm.trans right)
    rw [secondDelimiter, if_neg (by omega), if_neg apart,
      ih tail (List.IsChain.tail chain) (by omega) (by omega), List.length_cons]
    congr 1
    omega

/-- The variables complete `gv_altkey` with their key. -/
theorem PrevKeyVars.complete_describes {p : PrevKeyVars} {key : List UInt8} {pTop : Nat}
    (describes : p.Describes pTop key) (wellFormed : WellFormedKey key)
    (short : key.length ≤ MAX_KEY_SZ) :
    ∃ altkey, p.complete pTop = .ok altkey ∧ altkey.bytes = key := by
  rcases describes.parts with ⟨rfl, _, _⟩ | ⟨source, addr, some, within, front, rest, fits⟩
  · obtain ⟨body, impossible, _⟩ := wellFormed.ends
    simp at impossible
  obtain ⟨body, split, chain⟩ := wellFormed.ends
  have bodyLength : body.length + 2 = key.length := by
    rw [split]
    simp
  have tail : key.drop p.prevKeyCmpLen =
      body.drop p.prevKeyCmpLen ++ [KEY_DELIMITER, KEY_DELIMITER] := by
    rw [split, List.drop_append_of_le_length (by omega)]
  have tailLength : (body.drop p.prevKeyCmpLen).length + 2 = key.length - p.prevKeyCmpLen := by
    rw [List.length_drop]
    omega
  have tailChain : (body.drop p.prevKeyCmpLen ++ [KEY_DELIMITER]).IsChain NotBothDelimiters := by
    rw [← List.drop_append_of_le_length (by omega)]
    exact chain.drop _
  rw [tail, ← tailLength] at rest
  have found : secondDelimiter source (pTop - 1) pTop addr =
      .some (addr + (body.drop p.prevKeyCmpLen).length + 1) :=
    secondDelimiter_eq rest tailChain (by omega) (by omega)
  unfold PrevKeyVars.complete
  rw [some]
  dsimp only
  rw [found]
  dsimp only
  have length : addr + (body.drop p.prevKeyCmpLen).length + 1 + 1 - addr =
      key.length - p.prevKeyCmpLen := by omega
  have room := describes.room
  rw [length, if_neg (by omega)]
  refine ⟨_, rfl, ?_⟩
  show (p.altkey.base.store p.prevKeyCmpLen (source.read addr (key.length - p.prevKeyCmpLen))).read 0
    (p.prevKeyCmpLen + (key.length - p.prevKeyCmpLen) - 1 + 1) = key
  have whole : p.prevKeyCmpLen + (key.length - p.prevKeyCmpLen) - 1 + 1 =
      p.prevKeyCmpLen + (key.length - p.prevKeyCmpLen) := by omega
  have written := ByteMemory.read_store p.altkey.base p.prevKeyCmpLen
    (source.read addr (key.length - p.prevKeyCmpLen))
  rw [ByteMemory.length_read] at written
  rw [whole, ByteMemory.read_add, Nat.zero_add, written,
    ByteMemory.read_store_before (Nat.le_of_eq (Nat.zero_add _)), front, ← tailLength, rest, ← tail,
    List.take_append_drop]

/-! ## The search -/

/-- The records below the target, and the rest. -/
def recordsBelow (t : List UInt8) (recs : List BlockRec) : List BlockRec := recs.takeWhile fun r => r.key < t

/-- The records from the first not below `t` on. -/
def recordsFrom (t : List UInt8) (recs : List BlockRec) : List BlockRec :=
  recs.dropWhile fun r => r.key < t

/-- The status of a record against the target. -/
def BlockRec.status (t : List UInt8) (r : BlockRec) : SrchRecStatus :=
  ⟨r.offset, commonPrefix t r.key⟩

/-- The result of a search in records behind a record with the status `prev`. -/
def searched (t : List UInt8) (last : Nat) (prev : SrchRecStatus) (recs : List BlockRec) :
    SrchBlkStatus :=
  ⟨(recordsBelow t recs).getLast?.elim prev (BlockRec.status t),
    (recordsFrom t recs).head?.elim ⟨last, 0⟩ (BlockRec.status t)⟩

/-- The last key below the target. -/
def prevKey (t prev : List UInt8) (recs : List BlockRec) : List UInt8 :=
  (recordsBelow t recs).getLast?.elim prev BlockRec.key

theorem getLast?_elim_cons {α β : Type} (a : α) (l : List α) (b : β) (f : α → β) :
    (a :: l).getLast?.elim b f = l.getLast?.elim (f a) f := by
  rw [List.getLast?_cons]
  cases l.getLast? <;> rfl

theorem searched_below {t : List UInt8} {r : BlockRec} (less : r.key < t) (last : Nat)
    (prev : SrchRecStatus) (recs : List BlockRec) :
    searched t last prev (r :: recs) = searched t last (r.status t) recs := by
  unfold searched recordsBelow recordsFrom
  rw [List.takeWhile_cons_of_pos (by simpa using less), List.dropWhile_cons_of_pos (by simpa using less),
    getLast?_elim_cons]

theorem searched_found {t : List UInt8} {r : BlockRec} (notLess : ¬ r.key < t) (last : Nat)
    (prev : SrchRecStatus) (recs : List BlockRec) :
    searched t last prev (r :: recs) = ⟨prev, r.status t⟩ := by
  unfold searched recordsBelow recordsFrom
  rw [List.takeWhile_cons_of_neg (by simpa using notLess),
    List.dropWhile_cons_of_neg (by simpa using notLess)]
  rfl

theorem prevKey_below {t : List UInt8} {r : BlockRec} (less : r.key < t) (prev : List UInt8)
    (recs : List BlockRec) : prevKey t prev (r :: recs) = prevKey t r.key recs := by
  unfold prevKey recordsBelow
  rw [List.takeWhile_cons_of_pos (by simpa using less), getLast?_elim_cons]

theorem prevKey_found {t : List UInt8} {r : BlockRec} (notLess : ¬ r.key < t) (prev : List UInt8)
    (recs : List BlockRec) : prevKey t prev (r :: recs) = prev := by
  unfold prevKey recordsBelow
  rw [List.takeWhile_cons_of_neg (by simpa using notLess)]
  rfl

/-- The status without the conversion to unsigned shorts. -/
def SearchVars.wide (v : SearchVars) : SrchBlkStatus :=
  ⟨⟨v.pPrevRec, v.nMatchCnt⟩, ⟨v.pRecBase, v.nTargLen⟩⟩

section Search

variable {target buffaddr : ByteMemory} {t : List UInt8} {level0 : Bool} {pTop : Nat}

/-- The loop stands in front of a record: the one before has the key `prev`, which is below
the target and shares `m` bytes with it. -/
structure InFront (buffaddr : ByteMemory) (t : List UInt8) (level0 : Bool) (pTop : Nat)
    (prev : List UInt8) (m rp : Nat) (v : SearchVars) (p : Option PrevKeyVars) : Prop where
  place : v.pRecBase + v.nRecLen = rp
  below : PartsAt m prev t
  nMatchCnt : v.nMatchCnt = m
  pCurrTarg : v.pCurrTarg = m
  nTargLen : v.nTargLen = t.length - m
  expands : ∀ q, p = some q →
    level0 = true ∧ ∃ q', q.turn buffaddr v = .ok q' ∧ q'.Describes pTop prev

/-- What a search leaves of its variables. -/
def Ends (pTop : Nat) (expected : SrchBlkStatus) (key : List UInt8) (p : Option PrevKeyVars)
    (result : Except SearchSc (SearchVars × Option PrevKeyVars)) : Prop :=
  ∃ v' p', result = .ok (v', p') ∧ v'.wide = expected ∧ (p' = none ↔ p = none) ∧
    ∀ q, p' = some q → q.Describes pTop key

/-- The turn of the previous key, when it is asked for. -/
theorem InFront.turn {prev : List UInt8} {m rp : Nat} {v : SearchVars} {p : Option PrevKeyVars}
    (inFront : InFront buffaddr t level0 pTop prev m rp v p) :
    ∃ p', p.mapM (fun q => q.turn buffaddr v) = .ok p' ∧ (p' = none ↔ p = none) ∧
      ∀ q, p' = some q → level0 = true ∧ q.Describes pTop prev := by
  match p with
  | none => exact ⟨none, rfl, Iff.rfl, nofun⟩
  | some q =>
    obtain ⟨leaf, q', turned, describes⟩ := inFront.expands q rfl
    refine ⟨some q', ?_, by simp, fun r same => ?_⟩
    · show (do let q' ← q.turn buffaddr v; pure (some q')) = _
      rw [turned]
      rfl
    · obtain rfl := Option.some.inj same
      exact ⟨leaf, describes⟩

/-- The loop ends in this turn. -/
theorem searchLoop_found {turns : Nat} {v v' : SearchVars} {p p' : Option PrevKeyVars}
    (expanded : p.mapM (fun q => q.turn buffaddr v) = .ok p')
    (turn : searchTurn target buffaddr pTop level0 v = .ok (.found v')) :
    searchLoop target buffaddr pTop level0 (turns + 1) v p = .ok (v', p') := by
  rw [searchLoop, expanded, turn]
  rfl

/-- The loop goes on behind this turn. -/
theorem searchLoop_next {turns : Nat} {v v' : SearchVars} {p p' : Option PrevKeyVars}
    (expanded : p.mapM (fun q => q.turn buffaddr v) = .ok p')
    (turn : searchTurn target buffaddr pTop level0 v = .ok (.next v')) :
    searchLoop target buffaddr pTop level0 (turns + 1) v p =
      searchLoop target buffaddr pTop level0 turns v' p' := by
  rw [searchLoop, expanded, turn]
  rfl

/-- The end of a leaf. -/
theorem searchLoop_top {prev : List UInt8} {m turns : Nat} {v : SearchVars} {p : Option PrevKeyVars}
    (leaf : level0 = true) (inFront : InFront buffaddr t level0 pTop prev m pTop v p) :
    Ends pTop (searched t pTop ⟨v.pRecBase, m⟩ []) prev p
      (searchLoop target buffaddr pTop level0 (turns + 1) v p) := by
  obtain ⟨p', expanded, same, describes⟩ := inFront.turn
  have turn : searchTurn target buffaddr pTop level0 v =
      .ok (.found { v with nTargLen := 0, pPrevRec := v.pRecBase, pRecBase := pTop }) := by
    unfold searchTurn
    dsimp only
    rw [inFront.place, if_pos le_rfl, if_neg (lt_irrefl _), leaf, if_neg (by decide)]
  refine ⟨_, p', searchLoop_found expanded turn, ?_, same, fun q some => (describes q some).2⟩
  show (⟨⟨v.pRecBase, v.nMatchCnt⟩, ⟨pTop, 0⟩⟩ : SrchBlkStatus) = _
  rw [inFront.nMatchCnt]
  rfl

/-- The star record of an index block. Its block number is compared with the target when
nothing has matched so far; whatever comes of it, the loop ends there. -/
theorem searchLoop_star {prev : List UInt8} {m rp turns : Nat} {v : SearchVars}
    {p : Option PrevKeyVars} (index : level0 = false) (size : rsiz buffaddr rp = BSTAR_REC_SIZE)
    (cmpc : EVAL_CMPC buffaddr rp = 0) (last : rp + BSTAR_REC_SIZE = pTop) (positive : 0 < rp)
    (inFront : InFront buffaddr t level0 pTop prev m rp v p) :
    Ends pTop (searched t rp ⟨v.pRecBase, m⟩ []) prev p
      (searchLoop target buffaddr pTop level0 (turns + 2) v p) := by
  obtain ⟨p', expanded, same, describes⟩ := inFront.turn
  obtain rfl : p' = none := by
    cases p' with
    | none => rfl
    | some q => exact absurd (describes q rfl).1 (by rw [index]; decide)
  obtain rfl : p = none := same.mp rfl
  subst index
  have short : ¬ rp ≥ pTop := by
    rw [← last]
    simp [BSTAR_REC_SIZE, SIZEOF_rec_hdr]
  let w : SearchVars :=
    { v with nRecLen := BSTAR_REC_SIZE, pPrevRec := v.pRecBase, pRecBase := rp, nTmp := 0 }
  have opened : searchTurn target buffaddr pTop false v =
      if 0 > v.nMatchCnt then .ok (.next w)
      else if 0 < v.nMatchCnt then .ok (.found { w with nTargLen := 0 })
      else .ok (compareRecord target buffaddr false w) := by
    unfold searchTurn
    dsimp only
    rw [inFront.place, if_neg short, size, if_neg (by decide), cmpc]
    rfl
  rw [inFront.nMatchCnt, if_neg (Nat.not_lt_zero m)] at opened
  by_cases matched : 0 < m
  · rw [if_pos matched] at opened
    exact ⟨_, none, searchLoop_found expanded opened, rfl, Iff.rfl, nofun⟩
  · obtain rfl : m = 0 := by omega
    rw [if_neg matched, compareRecord] at opened
    generalize compareTarget target buffaddr w.pCurrTarg (w.pRecBase + SIZEOF_rec_hdr) w.nTargLen =
      result at opened
    obtain ⟨nFlg, pCurrTarg, nTargLen⟩ := result
    dsimp only at opened
    by_cases greater : 0 < nFlg
    · -- the target is larger than the block number, and the next turn is at the top
      rw [if_pos greater] at opened
      let u : SearchVars :=
        { w with pCurrTarg := pCurrTarg, nTargLen := nTargLen, nMatchCnt := pCurrTarg }
      have ended : searchTurn target buffaddr pTop false u =
          .ok (.found { u with nTargLen := 0, nMatchCnt := 0 }) := by
        unfold searchTurn
        have place : u.pRecBase + u.nRecLen = pTop := last
        dsimp only
        rw [place, if_pos le_rfl, if_neg (lt_irrefl _), if_pos rfl,
          if_neg (show ¬ u.pRecBase = 0 from positive.ne')]
      refine ⟨_, none, (searchLoop_next expanded opened).trans (searchLoop_found rfl ended), ?_,
        Iff.rfl, nofun⟩
      rfl
    · rw [if_neg greater, if_pos ⟨rfl, rfl⟩] at opened
      refine ⟨_, none, searchLoop_found expanded opened, ?_, Iff.rfl, nofun⟩
      show (⟨⟨v.pRecBase, v.nMatchCnt⟩, ⟨rp, 0⟩⟩ : SrchBlkStatus) = _
      rw [inFront.nMatchCnt]
      rfl

/-- The rest of the records, by induction on them: a record is skipped, or the loop ends
at it. -/
theorem searchLoop_spec {prev : List UInt8} {m rp last turns : Nat} {recs : List BlockRec}
    {v : SearchVars} {p : Option PrevKeyVars} (targetBytes : target.read 0 t.length = t)
    (wellFormedTarget : WellFormedKey t) (grammar : prev = [] ∨ WellFormedKey prev)
    (records : Records buffaddr level0 pTop prev rp recs last) (positive : 0 < rp)
    (inFront : InFront buffaddr t level0 pTop prev m rp v p) (enough : recs.length + 2 ≤ turns) :
    Ends pTop (searched t last ⟨v.pRecBase, m⟩ recs) (prevKey t prev recs) p
      (searchLoop target buffaddr pTop level0 turns v p) := by
  induction records generalizing m turns v p with
  | top leaf =>
    obtain ⟨turns, rfl⟩ : ∃ n, turns = n + 1 := ⟨turns - 1, by omega⟩
    exact searchLoop_top leaf inFront
  | star index size cmpc last =>
    obtain ⟨turns, rfl⟩ : ∃ n, turns = n + 2 := ⟨turns - 2, by simp at enough; omega⟩
    exact searchLoop_star index size cmpc last positive inFront
  | @record prev key rp last recs wellFormed short order cmpc bytes size more ih =>
    obtain ⟨turns, rfl⟩ : ∃ n, turns = n + 1 := ⟨turns - 1, by omega⟩
    rw [List.length_cons] at enough
    have parts := partsAt_commonPrefix order
    have inner := wellFormed.parts_le grammar parts
    generalize commonPrefix prev key = c at *
    obtain ⟨p', expanded, same, describes⟩ := inFront.turn
    have inside := more.le_top
    have header : 0 < SIZEOF_rec_hdr := by decide
    have short' : ¬ rp ≥ pTop := by omega
    let w : SearchVars :=
      { v with nRecLen := rsiz buffaddr rp, pPrevRec := v.pRecBase, pRecBase := rp, nTmp := c }
    have notStar : ¬ (rsiz buffaddr rp = BSTAR_REC_SIZE ∧ level0 = false) := by
      rintro ⟨star, index⟩
      rw [star, index] at size
      simp [BSTAR_REC_SIZE, SIZEOF_rec_hdr, SIZEOF_block_id] at size
      omega
    have opened : searchTurn target buffaddr pTop level0 v =
        if c > v.nMatchCnt then .ok (.next w)
        else if c < v.nMatchCnt then .ok (.found { w with nTargLen := c })
        else .ok (compareRecord target buffaddr level0 w) := by
      unfold searchTurn
      dsimp only
      rw [inFront.place, if_neg short', if_neg (by unfold SIZEOF_rec_hdr at size; omega), cmpc,
        if_neg notStar]
    rw [inFront.nMatchCnt] at opened
    -- the next turn brings the previous key up to this record
    have expands : ∀ u : SearchVars, u.pRecBase = rp → u.nTmp = c → ∀ q, p' = some q →
        level0 = true ∧ ∃ q', q.turn buffaddr u = .ok q' ∧ q'.Describes pTop key := by
      intro u base count q some
      obtain ⟨leaf, described⟩ := describes q some
      refine ⟨leaf, PrevKeyVars.turn_describes described grammar wellFormed short ?_ ?_ ?_ ?_⟩
      · rw [count]
        exact parts
      · rw [base]
        exact positive.ne'
      · rw [base, count]
        exact bytes
      · rw [base, count]
        omega
    have goesOn : ∀ n u, searchTurn target buffaddr pTop level0 v = .ok (.next u) →
        u.pRecBase = rp → u.nRecLen = rsiz buffaddr rp → u.nTmp = c → PartsAt n key t →
        u.nMatchCnt = n → u.pCurrTarg = n → u.nTargLen = t.length - n →
        Ends pTop (searched t last ⟨v.pRecBase, m⟩ (⟨rp, key⟩ :: recs))
          (prevKey t prev (⟨rp, key⟩ :: recs)) p
          (searchLoop target buffaddr pTop level0 (turns + 1) v p) := by
      intro n u turned base size' count less matched current left
      rw [searchLoop_next expanded turned, searched_below less.lt, prevKey_below less.lt]
      have inFront' : InFront buffaddr t level0 pTop key n (rp + rsiz buffaddr rp) u p' :=
        ⟨by rw [base, size'], less, matched, current, left, expands u base count⟩
      have ended : Ends pTop (searched t last ⟨u.pRecBase, n⟩ recs) (prevKey t key recs) p'
          (searchLoop target buffaddr pTop level0 turns u p') :=
        ih (.inr wellFormed) (by omega) inFront' (by omega)
      rw [base] at ended
      have status : BlockRec.status t ⟨rp, key⟩ = ⟨rp, n⟩ := by
        rw [BlockRec.status, less.commonPrefix_eq.2]
      rw [status]
      obtain ⟨v', p'', result, wide, same', described⟩ := ended
      exact ⟨v', p'', result, wide, same'.trans same, described⟩
    have stops : ∀ n u, searchTurn target buffaddr pTop level0 v = .ok (.found u) →
        u.pRecBase = rp → u.pPrevRec = v.pRecBase → ¬ key < t → commonPrefix t key = n →
        u.nMatchCnt = m → u.nTargLen = n →
        Ends pTop (searched t last ⟨v.pRecBase, m⟩ (⟨rp, key⟩ :: recs))
          (prevKey t prev (⟨rp, key⟩ :: recs)) p
          (searchLoop target buffaddr pTop level0 (turns + 1) v p) := by
      intro n u turned base before notLess common matched left
      rw [searchLoop_found expanded turned, searched_found notLess, prevKey_found notLess]
      refine ⟨u, p', rfl, ?_, same, fun q some => (describes q some).2⟩
      rw [SearchVars.wide, base, before, matched, left, BlockRec.status, common]
    rcases Nat.lt_trichotomy m c with shares | equal | parted
    · -- the record shares more with the one before than the target does
      rw [if_pos shares] at opened
      exact goesOn m w opened rfl rfl rfl (inFront.below.follows parts shares) inFront.nMatchCnt
        inFront.pCurrTarg inFront.nTargLen
    · subst equal
      rw [if_neg (lt_irrefl _), if_neg (lt_irrefl _), compareRecord] at opened
      have agree := inFront.below.agree_both parts
      have compared := compareTarget_key targetBytes wellFormedTarget wellFormed agree (by omega) bytes
      have place : compareTarget target buffaddr w.pCurrTarg (w.pRecBase + SIZEOF_rec_hdr) w.nTargLen =
          compareTarget target buffaddr m (rp + SIZEOF_rec_hdr) (t.length - m) := by
        show compareTarget target buffaddr v.pCurrTarg _ v.nTargLen = _
        rw [inFront.pCurrTarg, inFront.nTargLen]
      rw [place] at opened
      rcases compared with ⟨n, less, _, nFlg, greater, result⟩ | ⟨rfl, result⟩ |
          ⟨n, more, nFlg, left, smaller, result⟩
      · rw [result] at opened
        dsimp only at opened
        rw [if_pos greater] at opened
        exact goesOn n _ opened rfl rfl rfl less rfl rfl rfl
      · rw [result] at opened
        dsimp only at opened
        rw [if_neg (lt_irrefl _), if_neg notStar] at opened
        exact stops _ _ opened rfl rfl (List.lt_irrefl _) (commonPrefix_self _) inFront.nMatchCnt rfl
      · rw [result] at opened
        dsimp only at opened
        rw [if_neg (by omega), if_neg notStar] at opened
        exact stops _ _ opened rfl rfl (List.lt_asymm more.lt) more.commonPrefix_eq.1
          inFront.nMatchCnt rfl
    · -- the record parts from the one before where the target does not yet
      rw [if_neg (by omega), if_pos parted] at opened
      have more := inFront.below.overtakes parts parted
      exact stops _ _ opened rfl rfl (List.lt_asymm more.lt) more.commonPrefix_eq.1 rfl rfl

end Search

theorem Records.length_le {buffaddr : ByteMemory} {level0 : Bool} {pTop rp last : Nat}
    {prev : List UInt8} {recs : List BlockRec}
    (records : Records buffaddr level0 pTop prev rp recs last) : rp + recs.length ≤ pTop := by
  induction records with
  | top => exact le_rfl
  | star _ _ _ last =>
    rw [List.length_nil]
    omega
  | record _ _ _ _ _ size _ ih =>
    have header : 0 < SIZEOF_rec_hdr := by decide
    rw [List.length_cons]
    omega

/-- Every offset and every length of a block fits into an unsigned short. -/
theorem Records.small {buffaddr : ByteMemory} {level0 : Bool} {pTop rp last : Nat}
    {prev : List UInt8} {recs : List BlockRec}
    (records : Records buffaddr level0 pTop prev rp recs last) :
    last ≤ pTop ∧ ∀ r ∈ recs, r.offset ≤ pTop := by
  induction records with
  | top => exact ⟨le_rfl, fun r member => absurd member List.not_mem_nil⟩
  | star _ _ _ last => exact ⟨by omega, fun r member => absurd member List.not_mem_nil⟩
  | record _ _ _ _ _ _ more ih =>
    have inside := more.le_top
    exact ⟨ih.1, List.forall_mem_cons.mpr
      ⟨le_trans (Nat.le_add_right _ _) inside, ih.2⟩⟩

theorem commonPrefix_le (a b : List UInt8) : commonPrefix a b ≤ a.length := by
  induction a generalizing b with
  | nil => exact Nat.le_of_eq rfl
  | cons x a ih =>
    match b with
    | [] => exact Nat.zero_le _
    | y :: b =>
      rw [commonPrefix]
      split
      · exact Nat.succ_le_succ (ih b)
      · exact Nat.zero_le _

/-- The keys of a block. -/
theorem Records.grammar {buffaddr : ByteMemory} {level0 : Bool} {pTop rp last : Nat}
    {prev : List UInt8} {recs : List BlockRec}
    (records : Records buffaddr level0 pTop prev rp recs last) :
    ∀ r ∈ recs, WellFormedKey r.key ∧ r.key.length ≤ MAX_KEY_SZ := by
  induction records with
  | top => exact fun r member => absurd member List.not_mem_nil
  | star => exact fun r member => absurd member List.not_mem_nil
  | record wellFormed short _ _ _ _ _ ih =>
    exact List.forall_mem_cons.mpr ⟨⟨wellFormed, short⟩, ih⟩

/-- A key shares its whole length with no other key. -/
theorem WellFormedKey.full_iff {t key : List UInt8} (target : WellFormedKey t)
    (wellFormed : WellFormedKey key) : commonPrefix t key = t.length ↔ key = t := by
  constructor
  · intro full
    by_contra other
    by_cases less : key < t
    · have parts := partsAt_commonPrefix less
      rw [parts.commonPrefix_eq.2] at full
      have := parts.length_right
      omega
    · by_cases more : t < key
      · obtain ⟨x, _, found, _⟩ := target.parts wellFormed (partsAt_commonPrefix more)
        have := (List.getElem?_eq_some_iff.mp found).1
        omega
      · exact other (List.le_antisymm (List.not_lt.mp more) (List.not_lt.mp less))
  · rintro rfl
    exact commonPrefix_self _

/-- The status as the search leaves it, in unsigned shorts. -/
theorem SearchVars.status_eq {v : SearchVars} {expected : SrchBlkStatus} (wide : v.wide = expected)
    (small : expected.prev_rec.offset < 2 ^ 16 ∧ expected.prev_rec.match_ < 2 ^ 16 ∧
      expected.curr_rec.offset < 2 ^ 16 ∧ expected.curr_rec.match_ < 2 ^ 16) : v.status = expected := by
  subst wide
  obtain ⟨a, b, c, d⟩ := small
  simp only [SearchVars.wide] at a b c d
  rw [SearchVars.status, SearchVars.wide, Nat.mod_eq_of_lt a, Nat.mod_eq_of_lt b, Nat.mod_eq_of_lt c,
    Nat.mod_eq_of_lt d]

theorem searched_small {t : List UInt8} {last : Nat} {recs : List BlockRec}
    (short : t.length ≤ MAX_KEY_SZ) (lastSmall : last < 2 ^ 16)
    (offsets : ∀ r ∈ recs, r.offset < 2 ^ 16) :
    let status := searched t last ⟨0, 0⟩ recs
    status.prev_rec.offset < 2 ^ 16 ∧ status.prev_rec.match_ < 2 ^ 16 ∧
      status.curr_rec.offset < 2 ^ 16 ∧ status.curr_rec.match_ < 2 ^ 16 := by
  have recordSmall : ∀ r ∈ recs, (r.status t).offset < 2 ^ 16 ∧ (r.status t).match_ < 2 ^ 16 := by
    intro r member
    refine ⟨offsets r member, lt_of_le_of_lt (commonPrefix_le t r.key) (lt_of_le_of_lt short ?_)⟩
    decide
  have first : ∀ o : Option BlockRec, (∀ r ∈ o, r ∈ recs) → ∀ d : SrchRecStatus,
      d.offset < 2 ^ 16 ∧ d.match_ < 2 ^ 16 →
      (o.elim d (BlockRec.status t)).offset < 2 ^ 16 ∧ (o.elim d (BlockRec.status t)).match_ < 2 ^ 16 := by
    intro o members d default
    match o with
    | none => exact default
    | some r => exact recordSmall r (members r rfl)
  have prev := first (recordsBelow t recs).getLast? (fun r member =>
    (List.takeWhile_sublist _).subset (List.mem_of_getLast? member)) ⟨0, 0⟩ (by decide)
  have curr := first (recordsFrom t recs).head? (fun r member =>
    (List.dropWhile_sublist _).subset (List.mem_of_head? member)) ⟨last, 0⟩ ⟨lastSmall, Nat.two_pow_pos 16⟩
  exact ⟨prev.1, prev.2, curr.1, curr.2⟩

theorem recordsBelow_append_recordsFrom (t : List UInt8) (recs : List BlockRec) :
    recs = recordsBelow t recs ++ recordsFrom t recs := List.takeWhile_append_dropWhile.symm

theorem lt_of_mem_recordsBelow {t : List UInt8} {recs : List BlockRec} : ∀ r ∈ recordsBelow t recs, r.key < t := by
  intro r member
  simpa using List.mem_takeWhile_imp member

theorem head_recordsFrom {t : List UInt8} {recs : List BlockRec} :
    ∀ r ∈ (recordsFrom t recs).head?, ¬ r.key < t := by
  intro r first
  have stopped := List.head?_dropWhile_not (fun r : BlockRec => decide (r.key < t)) recs
  unfold recordsFrom at first
  rw [first] at stopped
  simpa using stopped

/-- A search in a well-formed block, with the key of the previous record when it is asked
for. -/
theorem gvcst_search_blk_eq {blk_size : Nat} {expand_prev_key : Bool} {gv_altkey pKey : KeyBuffer}
    {buffaddr : ByteMemory} {recs : List BlockRec} {last : Nat}
    (block : WellFormedBlock blk_size buffaddr recs last) (key : WellFormedTarget pKey)
    (room : MAX_KEY_SZ ≤ gv_altkey.top) :
    ∃ altkey, gvcst_search_blk blk_size expand_prev_key gv_altkey pKey buffaddr =
        .ok (searched pKey.bytes last ⟨0, 0⟩ recs, altkey) ∧
      (levl buffaddr = 0 → expand_prev_key = true →
        ∀ r ∈ (recordsBelow pKey.bytes recs).getLast?, altkey.bytes = r.key) := by
  have targetLength := pKey.length_bytes
  have long := key.wellFormed.length_ge
  let p : Option PrevKeyVars :=
    if levl buffaddr = 0 ∧ expand_prev_key = true then some ⟨gv_altkey, 0, none, false⟩ else none
  have pTop : min (bsiz buffaddr) blk_size = bsiz buffaddr := Nat.min_eq_left block.fits
  have first : PartsAt 0 [] pKey.bytes := by
    refine ⟨fun i impossible => absurd impossible (Nat.not_lt_zero i), pKey.bytes[0], ?_, nofun⟩
    exact List.getElem?_eq_getElem (by omega)
  have inFront : InFront buffaddr pKey.bytes (levl buffaddr = 0) (bsiz buffaddr) [] 0 SIZEOF_blk_hdr
      (.start pKey) p := by
    refine ⟨rfl, first, rfl, rfl, targetLength.symm, fun q some => ?_⟩
    by_cases asked : levl buffaddr = 0 ∧ expand_prev_key = true
    · simp only [p, if_pos asked, Option.some.injEq] at some
      subst some
      exact ⟨by simpa using asked.1, _, rfl, room, nofun, .inl ⟨rfl, rfl, rfl⟩⟩
    · simp only [p, if_neg asked, reduceCtorEq] at some
  have header : 0 < SIZEOF_blk_hdr := by decide
  have enough : recs.length + 2 ≤ bsiz buffaddr + 1 := by
    have := block.records.length_le
    unfold SIZEOF_blk_hdr at this
    omega
  obtain ⟨v, p', result, wide, same, described⟩ := searchLoop_spec (by rw [targetLength]; rfl)
    key.wellFormed (.inl rfl) block.records header inFront enough
  have top : bsiz buffaddr < 2 ^ 16 := by
    have := block.fits
    have := block.small
    unfold MAX_DB_BLK_SIZE at this
    omega
  have bounds := block.records.small
  have status := SearchVars.status_eq wide (searched_small key.short (lt_of_le_of_lt bounds.1 top)
    fun r member => lt_of_le_of_lt (bounds.2 r member) top)
  unfold gvcst_search_blk
  rw [pTop]
  show ∃ altkey, ((searchLoop pKey.base buffaddr (bsiz buffaddr) (levl buffaddr = 0)
    (bsiz buffaddr + 1) (.start pKey) p).bind _) = _ ∧ _
  rw [result]
  match p' with
  | none =>
    refine ⟨gv_altkey, ?_, fun leaf asked => ?_⟩
    · show Except.ok (v.status, gv_altkey) = _
      rw [status]
      rfl
    · have none : p = none := same.mp rfl
      simp only [p, if_pos (And.intro leaf asked), reduceCtorEq] at none
  | some q =>
    have describes := described q rfl
    cases found : (recordsBelow pKey.bytes recs).getLast? with
    | none =>
      have empty : prevKey pKey.bytes [] recs = [] := by rw [prevKey, found]; rfl
      rw [empty] at describes
      rcases describes.parts with ⟨_, unset, _⟩ | ⟨_, _, _, impossible, _⟩
      · refine ⟨{ q.altkey with end_ := 0 }, ?_, fun _ _ => nofun⟩
        show (q.complete (bsiz buffaddr)).bind (fun altkey => Except.ok (v.status, altkey)) = _
        rw [PrevKeyVars.complete, unset, status]
        rfl
      · simp at impossible
    | some r =>
      have same' : prevKey pKey.bytes [] recs = r.key := by rw [prevKey, found]; rfl
      rw [same'] at describes
      have grammar := block.records.grammar r
        ((List.takeWhile_sublist _).subset (List.mem_of_getLast? found))
      obtain ⟨altkey, completed, bytes⟩ := PrevKeyVars.complete_describes describes grammar.1 grammar.2
      refine ⟨altkey, ?_, fun _ _ s member => ?_⟩
      · show (q.complete (bsiz buffaddr)).bind (fun altkey => Except.ok (v.status, altkey)) = _
        rw [completed, status]
        rfl
      · obtain rfl := Option.some.inj member
        exact bytes

/-- The search ends at the first record that is not below the target, or behind all
records with keys: at the star record of an index block, at the top of a leaf. Both matches
are the exact number of bytes that the target shares with the key of the record. -/
theorem gvcst_search_blk_finds_first {blk_size : Nat} {expand_prev_key : Bool}
    {gv_altkey pKey : KeyBuffer} {buffaddr : ByteMemory} {recs : List BlockRec} {last : Nat}
    (block : WellFormedBlock blk_size buffaddr recs last) (key : WellFormedTarget pKey)
    (room : MAX_KEY_SZ ≤ gv_altkey.top) :
    ∃ status altkey before after,
      gvcst_search_blk blk_size expand_prev_key gv_altkey pKey buffaddr = .ok (status, altkey) ∧
      recs = before ++ after ∧ (∀ r ∈ before, r.key < pKey.bytes) ∧
      (∀ r ∈ after.head?, ¬ r.key < pKey.bytes) ∧
      status.prev_rec = before.getLast?.elim ⟨0, 0⟩
        (fun r => ⟨r.offset, commonPrefix pKey.bytes r.key⟩) ∧
      status.curr_rec = after.head?.elim ⟨last, 0⟩
        (fun r => ⟨r.offset, commonPrefix pKey.bytes r.key⟩) ∧
      ∀ r ∈ recs, commonPrefix pKey.bytes r.key = pKey.end_ + 1 ↔ r.key = pKey.bytes := by
  obtain ⟨altkey, result, _⟩ := gvcst_search_blk_eq block key room
  refine ⟨_, altkey, recordsBelow pKey.bytes recs, recordsFrom pKey.bytes recs, result,
    recordsBelow_append_recordsFrom _ _, lt_of_mem_recordsBelow, head_recordsFrom, rfl, rfl, fun r member => ?_⟩
  have targetLength := pKey.length_bytes
  rw [← targetLength]
  exact key.wellFormed.full_iff (block.records.grammar r member).1

/-- A leaf with the records `a` and `ab`, whose values have two bytes. -/
def leafOfTwo : ByteMemory := fun a =>
  [0, 0, 0, 0, 34, 0, 0, 0, 0, 0, 0, 0, 0, 0, 0, 0,
    9, 0, 0, 0, 0x61, 0, 0, 1, 2,
    9, 0, 1, 0, 0x62, 0, 0, 3, 4].getD a 0

/-- The key `aa`. -/
def keyBetween : KeyBuffer := ⟨16, 3, 0, fun a => [0x61, 0x61, 0, 0].getD a 0⟩

theorem leafOfTwo_wellFormed :
    WellFormedBlock 512 leafOfTwo [⟨16, [0x61, 0, 0]⟩, ⟨25, [0x61, 0x62, 0, 0]⟩] 34 := by
  have first : WellFormedKey [0x61, 0, 0] :=
    ⟨by decide, [0x61], rfl, by simp [NotBothDelimiters, KEY_DELIMITER]⟩
  have second : WellFormedKey [0x61, 0x62, 0, 0] :=
    ⟨by decide, [0x61, 0x62], rfl, by simp [NotBothDelimiters, KEY_DELIMITER]⟩
  refine ⟨by decide, by decide, ?_⟩
  refine .record first (by decide) (by decide) (by decide) (by decide) (by decide) ?_
  refine .record second (by decide) (by decide) (by decide) (by decide) (by decide) ?_
  exact .top (by decide)

/-- The search for a key between the two records. -/
theorem gvcst_search_blk_finds_first_between :
    ∃ status altkey before after,
      gvcst_search_blk 512 true ⟨1023, 0, 0, fun _ => 0⟩ keyBetween leafOfTwo = .ok (status, altkey) ∧
      ([⟨16, [0x61, 0, 0]⟩, ⟨25, [0x61, 0x62, 0, 0]⟩] : List BlockRec) = before ++ after ∧
      (∀ r ∈ before, r.key < keyBetween.bytes) ∧
      (∀ r ∈ after.head?, ¬ r.key < keyBetween.bytes) ∧
      status.prev_rec = before.getLast?.elim ⟨0, 0⟩
        (fun r => ⟨r.offset, commonPrefix keyBetween.bytes r.key⟩) ∧
      status.curr_rec = after.head?.elim ⟨34, 0⟩
        (fun r => ⟨r.offset, commonPrefix keyBetween.bytes r.key⟩) ∧
      ∀ r ∈ ([⟨16, [0x61, 0, 0]⟩, ⟨25, [0x61, 0x62, 0, 0]⟩] : List BlockRec),
        commonPrefix keyBetween.bytes r.key = keyBetween.end_ + 1 ↔ r.key = keyBetween.bytes := by
  have bytes : keyBetween.bytes = [0x61, 0x61, 0, 0] := by decide
  refine gvcst_search_blk_finds_first leafOfTwo_wellFormed ⟨?_, by decide⟩ (by decide)
  rw [bytes]
  exact ⟨by decide, [0x61, 0x61], rfl, by simp [NotBothDelimiters, KEY_DELIMITER]⟩

end Ydb
