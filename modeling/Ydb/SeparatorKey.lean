import Ydb.KeyText
import Ydb.Lib.Divergence
import Ydb.Lib.ByteMemory
import Mathlib.Data.List.Chain

/-!
# The key that separates two halves of a split leaf

When `gvcst_put2` splits a leaf, the parent receives a key that is at least the
last key of the left block and below the first key of the right block. The left
key is held in `temp_key`; it is edited in place, at the first byte in which the
two keys differ and at the byte behind it. The right key is spread over two
segments of the update array: a part that was written there and a part that is
still read from the block.

The edit never leaves the interval between the two keys, keeps the grammar of a
key, and never asks for a restart.
-/

namespace Ydb

open Lib

/-! ## The edit -/

/-- Largest byte of a string subscript. -/
def STR_SUB_MAXVAL : UInt8 := 0xFF

/-- Why a transaction has to be tried again. -/
inductive CdbSc where
  | mkblk
deriving DecidableEq, Repr

/-- A segment of the update array. -/
structure BlkSegment where
  addr : Nat
  len : Nat
deriving DecidableEq, Repr

/-- A key in its allocation; bytes behind the one at `end_` are left over from
earlier uses. -/
structure KeyBuffer where
  top : Nat
  end_ : Nat
  prev : Nat
  base : ByteMemory

/-- The bytes of the key, with both delimiters. -/
def KeyBuffer.bytes (key : KeyBuffer) : List UInt8 := key.base.read 0 (key.end_ + 1)

theorem KeyBuffer.length_bytes (key : KeyBuffer) : key.bytes.length = key.end_ + 1 := ByteMemory.length_read

/-- Write one byte. -/
def store (base : ByteMemory) (cp : Nat) (ch : UInt8) : ByteMemory := Function.update base cp ch

/-- The number of equal bytes from `cp1` and `cp2` on, out of `len`. -/
def matchedBytes (base mem : ByteMemory) (cp1 cp2 : Nat) : Nat → Nat
  | 0 => 0
  | len + 1 =>
    if mem cp2 = base cp1 then matchedBytes base mem (cp1 + 1) (cp2 + 1) len + 1 else 0

/-- Where the keys differ: `cp1` in the left key, `cp2` in a segment of the right
key, and the place of the byte behind `cp2`. -/
structure FirstDifference where
  cp1 : Nat
  cp2 : Nat
  next : Nat
deriving DecidableEq, Repr

/-- Find the first difference. The second segment is consulted only when the
first is used up; without a second segment the transaction restarts. -/
def firstDifference (base mem : ByteMemory) (bs1_2 : BlkSegment) (bs1_3 : Option BlkSegment) :
    Except CdbSc FirstDifference :=
  let i := matchedBytes base mem 0 bs1_2.addr bs1_2.len
  if i = bs1_2.len then
    match bs1_3 with
    | none => .error .mkblk
    | some bs1_3 =>
      let j := matchedBytes base mem i bs1_3.addr bs1_3.len
      .ok ⟨i + j, bs1_3.addr + j, bs1_3.addr + j + 1⟩
  else
    -- the byte behind the last one of the first segment is the first of the second
    let next := if i = bs1_2.len - 1 then (bs1_3.map BlkSegment.addr).getD 0 else bs1_2.addr + i + 1
    .ok ⟨i, bs1_2.addr + i, next⟩

/-- The bytes differ by more than one: move the left byte towards the right one
and end the key there. -/
def backOffByte (key : KeyBuffer) (cp1 : Nat) (n : Int) (new_rec_goes_to_right : Bool) :
    Except CdbSc KeyBuffer :=
  if cp1 + 2 < key.top then
    let change : UInt8 := if new_rec_goes_to_right then 1 else UInt8.ofNat (n - 1).toNat
    let base := store key.base cp1 (key.base cp1 + change)
    .ok { key with base := store (store base (cp1 + 1) 0) (cp1 + 2) 0, end_ := cp1 + 2 }
  else
    .error .mkblk

/-- The two bytes that replace those at the difference and behind it, for bytes
that differ by one. The read in front of `next` is the source's own. -/
def steppedBytes (base mem : ByteMemory) (cp1 next : Nat) (new_rec_goes_to_right : Bool) :
    UInt8 × UInt8 :=
  if new_rec_goes_to_right then
    let old_ch := base (cp1 + 1)
    (if old_ch = STR_SUB_MAXVAL then mem (next - 1) else base cp1, old_ch + 1)
  else
    let old_ch := mem next
    (if old_ch = KEY_DELIMITER then base cp1 else mem (next - 1), old_ch - 1)

/-- Write both bytes and the delimiters behind them. A byte that was stepped to
zero is itself the first delimiter. -/
def KeyBuffer.edited (key : KeyBuffer) (cp1 : Nat) (ch new_ch : UInt8) : KeyBuffer :=
  let base := store (store key.base (cp1 + 1) new_ch) cp1 ch
  if new_ch = KEY_DELIMITER then
    { key with base := store base (cp1 + 2) KEY_DELIMITER, end_ := cp1 + 2 }
  else
    { key with
      base := store (store base (cp1 + 2) KEY_DELIMITER) (cp1 + 3) KEY_DELIMITER
      end_ := cp1 + 3 }

/-- The bytes differ by one: step the byte behind the difference, unless the left
key ends here, the step would reach the right key, or the key would get too
long. -/
def backOffNext (key : KeyBuffer) (mem : ByteMemory) (cp1 next : Nat)
    (new_rec_goes_to_right : Bool) (max_key_size : Nat) : Except CdbSc KeyBuffer :=
  let start_len := cp1 + 1 + 2
  if start_len < key.top then
    -- a key starts with a byte other than the delimiter, so `cp1 - 1` is read inside it
    if (key.base cp1 ≠ KEY_DELIMITER ∨ key.base (cp1 - 1) ≠ KEY_DELIMITER) ∧
        (key.base (cp1 + 1) ≠ STR_SUB_MAXVAL ∨ mem next ≠ KEY_DELIMITER) ∧
        max_key_size > start_len then
      let (ch, new_ch) := steppedBytes key.base mem cp1 next new_rec_goes_to_right
      .ok (key.edited cp1 ch new_ch)
    else
      .ok key
  else
    .error .mkblk

/-- Edit the left key by the difference of the first two bytes that differ. -/
def backOff (key : KeyBuffer) (mem : ByteMemory) (place : FirstDifference)
    (new_rec_goes_to_right : Bool) (max_key_size : Nat) : Except CdbSc KeyBuffer :=
  let n : Int := (mem place.cp2).toNat - (key.base place.cp1).toNat
  if n < 0 then .error .mkblk
  else if 1 < n then backOffByte key place.cp1 n new_rec_goes_to_right
  else if n = 1 then backOffNext key mem place.cp1 place.next new_rec_goes_to_right max_key_size
  else .ok key

/-- Turn the last key of the left block into the key for the parent. -/
def separatorKey (temp_key : KeyBuffer) (mem : ByteMemory) (bs1_2 : BlkSegment)
    (bs1_3 : Option BlkSegment) (new_rec_goes_to_right : Bool) (max_key_size : Nat) :
    Except CdbSc KeyBuffer := do
  let place ← firstDifference temp_key.base mem bs1_2 bs1_3
  let key ← backOff temp_key mem place new_rec_goes_to_right max_key_size
  if 2 ≤ key.end_ ∧ key.base (key.end_ - 2) = KEY_DELIMITER then .error .mkblk else .ok key

/-! ## Keys -/

/-- Two neighbours inside a key: not both are delimiters. -/
def NotBothDelimiters (ch next : UInt8) : Prop := ch ≠ KEY_DELIMITER ∨ next ≠ KEY_DELIMITER

/-- The grammar of a key: two delimiters end it, no two stand together before
that, and the first byte is not one. -/
structure WellFormedKey (key : List UInt8) : Prop where
  starts : key.head? ≠ some KEY_DELIMITER
  ends : ∃ body, key = body ++ [KEY_DELIMITER, KEY_DELIMITER] ∧
    (body ++ [KEY_DELIMITER]).IsChain NotBothDelimiters

/-- The segments hold the first key of the right block. A new record that goes to
the right has its whole key in the first segment. Otherwise the first segment is
a copy of the bytes that the record shares with the left key, and the rest of the
record follows in the block. -/
inductive RightKey (mem : ByteMemory) (L R : List UInt8) :
    Bool → BlkSegment → Option BlkSegment → Prop
  | written {bs1_2 : BlkSegment} {bs1_3 : Option BlkSegment}
      (key : mem.read bs1_2.addr bs1_2.len = R) : RightKey mem L R true bs1_2 bs1_3
  | shared {bs1_2 bs1_3 : BlkSegment} (rec_cmpc : Nat) (rest : List UInt8)
      (copied : mem.read bs1_2.addr bs1_2.len = L.take rec_cmpc)
      (key : mem.read bs1_2.addr bs1_2.len ++ mem.read bs1_3.addr bs1_3.len = R ++ rest) :
      RightKey mem L R false bs1_2 (some bs1_3)

/-! ## Where two keys part -/

/-- A key is not the beginning of another one. -/
theorem WellFormedKey.eq_of_prefix {L R : List UInt8} (left : WellFormedKey L)
    (right : WellFormedKey R) (begins : L <+: R) : L = R := by
  obtain ⟨more, rfl⟩ := begins
  obtain ⟨body, rfl, _⟩ := left.ends
  obtain ⟨whole, same, chain⟩ := right.ends
  cases List.eq_nil_or_concat more with
  | inl none => rw [none, List.append_nil]
  | inr one =>
    obtain ⟨front, last, rfl⟩ := one
    have inner : whole ++ [KEY_DELIMITER] =
        body ++ ([KEY_DELIMITER, KEY_DELIMITER] ++ front) := by
      have split : (whole ++ [KEY_DELIMITER]) ++ [KEY_DELIMITER] =
          (body ++ ([KEY_DELIMITER, KEY_DELIMITER] ++ front)) ++ [last] := by
        simpa using same.symm
      exact List.append_inj_left' split rfl
    rw [inner] at chain
    have two := (List.isChain_append.mp chain).2.1
    simp [NotBothDelimiters] at two

/-- Sequences in order that are not the beginning of each other part somewhere. -/
theorem exists_parting {L R : List UInt8} (smaller : L < R) (apart : ¬ L <+: R) :
    ∃ common x y left right, L = common ++ x :: left ∧ R = common ++ y :: right ∧ x < y := by
  induction L generalizing R with
  | nil => exact absurd (List.nil_prefix) apart
  | cons x left ih =>
    cases R with
    | nil => exact absurd smaller (List.not_lt_nil _)
    | cons y right =>
      rcases List.cons_lt_cons_iff.mp smaller with less | ⟨rfl, less⟩
      · exact ⟨[], x, y, left, right, rfl, rfl, less⟩
      · have apart' : ¬ left <+: right := by
          intro begins
          exact apart ((List.prefix_cons_inj x).mpr begins)
        obtain ⟨common, a, b, l, r, rfl, rfl, ordered⟩ := ih less apart'
        exact ⟨x :: common, a, b, l, r, rfl, rfl, ordered⟩

/-- The first difference of two keys in order, with what the grammar says about
the bytes around it. -/
structure Parting (L R : List UInt8) where
  common : List UInt8
  x : UInt8
  y : UInt8
  left : List UInt8
  middle : List UInt8
  leftKey : L = common ++ x :: left
  rightKey : R = common ++ y :: (middle ++ [KEY_DELIMITER, KEY_DELIMITER])
  smaller : x < y
  chain : common.IsChain NotBothDelimiters

theorem Parting.ne {L R : List UInt8} (p : Parting L R) : p.x ≠ p.y := by
  intro same
  have smaller := p.smaller
  rw [same] at smaller
  exact UInt8.lt_irrefl _ smaller

/-- Two keys part at a byte. -/
theorem exists_partingOfKeys {L R : List UInt8} (wellFormed : WellFormedKey L)
    (other : WellFormedKey R) (smaller : L < R) : Nonempty (Parting L R) := by
  have apart : ¬ L <+: R := by
    intro begins
    have same := wellFormed.eq_of_prefix other begins
    rw [same] at smaller
    exact List.lt_irrefl _ smaller
  obtain ⟨common, x, y, left, right, leftKey, rightKey, less⟩ := exists_parting smaller apart
  obtain ⟨body, ends, chain⟩ := other.ends
  have positive : y ≠ KEY_DELIMITER := by
    rintro rfl
    exact absurd less (by simp [KEY_DELIMITER])
  -- the larger byte is not a delimiter, so that both delimiters are behind it
  have whole : common ++ y :: right = body ++ [KEY_DELIMITER, KEY_DELIMITER] :=
    rightKey.symm.trans ends
  obtain ⟨middle, rfl⟩ : ∃ middle, right = middle ++ [KEY_DELIMITER, KEY_DELIMITER] := by
    rcases List.append_eq_append_iff.mp whole with ⟨more, rfl, tail⟩ | ⟨more, rfl, tail⟩
    · cases more with
      | nil => simp at tail; exact absurd tail.1 positive
      | cons a more =>
        obtain ⟨rfl, rest⟩ := List.cons.inj tail
        exact ⟨more, rest⟩
    · cases more with
      | nil => simp at tail; exact absurd tail.1.symm positive
      | cons a more =>
        cases more with
        | nil => simp at tail; exact absurd tail.2.1.symm positive
        | cons b more => simp at tail
  refine ⟨⟨common, x, y, left, middle, leftKey, rightKey, less, ?_⟩⟩
  have sameBody : body = common ++ y :: middle := by
    have cut : (body ++ [KEY_DELIMITER, KEY_DELIMITER]) =
        (common ++ y :: middle) ++ [KEY_DELIMITER, KEY_DELIMITER] := by
      rw [← whole]
      simp
    exact List.append_cancel_right cut
  rw [sameBody, List.append_assoc] at chain
  exact chain.left_of_append

/-! ## Finding the difference -/

/-- The scan stops at the first difference or at the end of the segment. -/
theorem matchedBytes_eq {base mem : ByteMemory} {cp1 cp2 c len : Nat} (within : c ≤ len)
    (same : ∀ k < c, mem (cp2 + k) = base (cp1 + k))
    (stop : c = len ∨ mem (cp2 + c) ≠ base (cp1 + c)) :
    matchedBytes base mem cp1 cp2 len = c := by
  induction len generalizing cp1 cp2 c with
  | zero =>
    rw [matchedBytes]
    omega
  | succ len ih =>
    rw [matchedBytes]
    cases c with
    | zero =>
      have differ : mem cp2 ≠ base cp1 := by
        rcases stop with impossible | differ
        · omega
        · exact differ
      rw [if_neg differ]
    | succ c =>
      have first : mem cp2 = base cp1 := same 0 (by omega)
      rw [if_pos first]
      have rest : matchedBytes base mem (cp1 + 1) (cp2 + 1) len = c := by
        apply ih (by omega)
        · intro k less
          rw [Nat.add_assoc, Nat.add_assoc, Nat.add_comm 1]
          exact same (k + 1) (by omega)
        · rw [Nat.add_assoc, Nat.add_assoc, Nat.add_comm 1]
          rcases stop with full | differ
          · exact .inl (by omega)
          · exact .inr differ
      rw [rest]

/-- The facts about the place of the first difference that the edit relies on. -/
structure Located {L R : List UInt8} (p : Parting L R) (base mem : ByteMemory)
    (place : FirstDifference) : Prop where
  cp1 : place.cp1 = p.common.length
  cp2 : mem place.cp2 = p.y
  next : mem place.next = (p.middle ++ [KEY_DELIMITER]).head (by simp)
  behind : mem (place.next - 1) = p.y

theorem head_middle (middle : List UInt8) :
    ∃ rest, middle ++ [KEY_DELIMITER, KEY_DELIMITER] =
      (middle ++ [KEY_DELIMITER]).head (by simp) :: rest ∧ rest ≠ [] := by
  cases middle with
  | nil => exact ⟨[KEY_DELIMITER], rfl, by simp⟩
  | cons z more => exact ⟨more ++ [KEY_DELIMITER, KEY_DELIMITER], rfl, by simp⟩

/-- A key that was written as a whole is searched in the first segment alone. -/
theorem firstDifference_written {L R : List UInt8} (p : Parting L R) {base mem : ByteMemory}
    {n : Nat} (holds : base.read 0 n = L) {bs1_2 : BlkSegment} (bs1_3 : Option BlkSegment)
    (key : mem.read bs1_2.addr bs1_2.len = R) :
    ∃ place, firstDifference base mem bs1_2 bs1_3 = .ok place ∧ Located p base mem place := by
  obtain ⟨rest, tail, some'⟩ := head_middle p.middle
  have size : bs1_2.len = p.common.length + (1 + (1 + rest.length)) := by
    have sizes := congrArg List.length (key.trans p.rightKey)
    rw [tail] at sizes
    simp only [ByteMemory.length_read, List.length_append, List.length_cons] at sizes
    omega
  have more : 0 < rest.length := List.length_pos_iff.mpr some'
  have atDifference : mem (bs1_2.addr + p.common.length) = p.y :=
    ByteMemory.of_read (key.trans p.rightKey)
  have left : base (0 + p.common.length) = p.x := ByteMemory.of_read (holds.trans p.leftKey)
  have stops : matchedBytes base mem 0 bs1_2.addr bs1_2.len = p.common.length := by
    apply matchedBytes_eq (by omega)
    · intro k inside
      rw [ByteMemory.of_read_append (key.trans p.rightKey) inside,
        ByteMemory.of_read_append (holds.trans p.leftKey) inside]
    · rw [atDifference, left]
      exact .inr p.ne.symm
  refine ⟨⟨p.common.length, bs1_2.addr + p.common.length, bs1_2.addr + p.common.length + 1⟩,
    ?_, rfl, atDifference, ?_, atDifference⟩
  · simp only [firstDifference, stops]
    rw [if_neg (by omega), if_neg (by omega)]
  · have split : p.common ++ p.y :: (p.middle ++ [KEY_DELIMITER, KEY_DELIMITER]) =
        (p.common ++ [p.y]) ++ (p.middle ++ [KEY_DELIMITER]).head (by simp) :: rest := by
      rw [← tail, List.append_assoc]
      rfl
    have found := ByteMemory.of_read ((key.trans p.rightKey).trans split)
    rwa [List.length_append, List.length_singleton, ← Nat.add_assoc] at found

/-- Bytes copied from the left key that begin the right key lie before the first
difference; the rest of the right key stands in the second segment. -/
theorem Parting.copied {L R : List UInt8} (p : Parting L R) {copy segment rest : List UInt8}
    {rec_cmpc : Nat} (copied : copy = L.take rec_cmpc) (key : copy ++ segment = R ++ rest) :
    ∃ beyond, p.common = copy ++ beyond ∧
      segment = beyond ++ p.y :: (p.middle ++ [KEY_DELIMITER, KEY_DELIMITER] ++ rest) := by
  have whole : copy ++ segment =
      p.common ++ p.y :: (p.middle ++ [KEY_DELIMITER, KEY_DELIMITER] ++ rest) := by
    rw [key]
    conv_lhs => rw [p.rightKey]
    simp
  have begins : copy ++ L.drop rec_cmpc = p.common ++ p.x :: p.left := by
    rw [copied, List.take_append_drop]
    exact p.leftKey
  rcases List.append_eq_append_iff.mp whole with ⟨beyond, common, segment'⟩ | ⟨more, rfl, tail⟩
  · exact ⟨beyond, common, segment'⟩
  · cases more with
    | nil =>
      rw [List.nil_append] at tail
      exact ⟨[], by simp, by rw [← tail]; rfl⟩
    | cons ch more =>
      -- the copy would hold the byte of the left key where the right key has another
      rw [List.append_assoc] at begins
      have left := List.append_cancel_left begins
      have isX : ch = p.x := (List.cons.inj left).1
      have isY : p.y = ch := (List.cons.inj tail).1
      exact absurd (isY.trans isX).symm p.ne

/-- A key that the block shares with the left key is searched in both segments. -/
theorem firstDifference_shared {L R : List UInt8} (p : Parting L R) {base mem : ByteMemory}
    {n : Nat} (holds : base.read 0 n = L) {bs1_2 bs1_3 : BlkSegment} {rec_cmpc : Nat}
    {rest : List UInt8} (copied : mem.read bs1_2.addr bs1_2.len = L.take rec_cmpc)
    (key : mem.read bs1_2.addr bs1_2.len ++ mem.read bs1_3.addr bs1_3.len = R ++ rest) :
    ∃ place, firstDifference base mem bs1_2 (some bs1_3) = .ok place ∧
      Located p base mem place := by
  obtain ⟨beyond, common, segment⟩ := p.copied copied key
  obtain ⟨behind, tail, _⟩ := head_middle p.middle
  have size : p.common.length = bs1_2.len + beyond.length := by
    have sizes := congrArg List.length common
    rwa [List.length_append, ByteMemory.length_read] at sizes
  have leftBytes : base.read 0 n =
      mem.read bs1_2.addr bs1_2.len ++ (beyond ++ p.x :: p.left) := by
    rw [holds, ← List.append_assoc, ← common]
    exact p.leftKey
  have atDifference : mem (bs1_3.addr + beyond.length) = p.y := ByteMemory.of_read segment
  have first : matchedBytes base mem 0 bs1_2.addr bs1_2.len = bs1_2.len := by
    apply matchedBytes_eq (Nat.le_refl _)
    · intro k inside
      have inside' : k < (mem.read bs1_2.addr bs1_2.len).length := by
        rwa [ByteMemory.length_read]
      rw [ByteMemory.of_read_append leftBytes inside', ByteMemory.of_read_append
        (List.append_nil _).symm inside']
    · exact .inl rfl
  have second : matchedBytes base mem bs1_2.len bs1_3.addr bs1_3.len = beyond.length := by
    have leftBytes' : base.read bs1_2.len (n - bs1_2.len) = beyond ++ p.x :: p.left := by
      have room : n = bs1_2.len + (n - bs1_2.len) := by
        have sizes := congrArg List.length leftBytes
        rw [ByteMemory.length_read, List.length_append, ByteMemory.length_read] at sizes
        omega
      rw [room, ByteMemory.read_add, Nat.zero_add] at leftBytes
      exact List.append_inj_right leftBytes (by simp)
    have within : beyond.length ≤ bs1_3.len := by
      have sizes := congrArg List.length segment
      rw [ByteMemory.length_read, List.length_append] at sizes
      omega
    apply matchedBytes_eq within
    · intro k inside
      rw [ByteMemory.of_read_append segment inside, ByteMemory.of_read_append leftBytes' inside]
    · rw [atDifference, ByteMemory.of_read leftBytes']
      exact .inr p.ne.symm
  refine ⟨⟨bs1_2.len + beyond.length, bs1_3.addr + beyond.length,
    bs1_3.addr + beyond.length + 1⟩, ?_, size.symm, atDifference, ?_, atDifference⟩
  · simp only [firstDifference, first, if_true, second]
  · rw [tail] at segment
    have split : mem.read bs1_3.addr bs1_3.len = (beyond ++ [p.y]) ++
        (p.middle ++ [KEY_DELIMITER]).head (by simp) :: (behind ++ rest) := by
      rw [segment]
      simp
    have found := ByteMemory.of_read split
    rwa [List.length_append, List.length_singleton, ← Nat.add_assoc] at found

theorem firstDifference_located {L R : List UInt8} (p : Parting L R) {base mem : ByteMemory}
    {n : Nat} (holds : base.read 0 n = L) {new_rec_goes_to_right : Bool} {bs1_2 : BlkSegment}
    {bs1_3 : Option BlkSegment} (right : RightKey mem L R new_rec_goes_to_right bs1_2 bs1_3) :
    ∃ place, firstDifference base mem bs1_2 bs1_3 = .ok place ∧ Located p base mem place := by
  cases right with
  | written key => exact firstDifference_written p holds _ key
  | shared rec_cmpc rest copied key => exact firstDifference_shared p holds copied key

/-! ## The edited key -/

/-- What the parent is promised of its key. -/
structure Separates (L R sep : List UInt8) (max_key_size : Nat) : Prop where
  notBelow : L ≤ sep
  below : sep < R
  wellFormed : WellFormedKey sep
  short : sep.length ≤ max_key_size

/-- Bytes behind the common part make a key when they do not bring two delimiters
together. -/
theorem Parting.wellFormedKey {L R : List UInt8} (p : Parting L R) (wellFormed : WellFormedKey L)
    {b : UInt8} (tail : List UInt8) (first : b ≠ KEY_DELIMITER ∨ b = p.x)
    (joined : ∀ a ∈ p.common.getLast?, NotBothDelimiters a b)
    (chain : (b :: tail ++ [KEY_DELIMITER]).IsChain NotBothDelimiters) :
    WellFormedKey (p.common ++ b :: tail ++ [KEY_DELIMITER, KEY_DELIMITER]) := by
  constructor
  · have starts := wellFormed.starts
    rw [p.leftKey] at starts
    cases start : p.common with
    | nil =>
      rw [start] at starts
      rcases first with other | same
      · simpa using other
      · simpa [same] using starts
    | cons a more =>
      rw [start] at starts
      simpa using starts
  · refine ⟨p.common ++ b :: tail, rfl, ?_⟩
    rw [List.append_assoc]
    apply p.chain.append chain
    intro a last c head
    rw [List.cons_append, List.head?_cons, Option.mem_some_iff] at head
    rw [← head]
    exact joined a last

theorem Parting.left_lt {L R : List UInt8} (p : Parting L R) {tail : List UInt8}
    (above : p.x :: p.left < tail) : L < p.common ++ tail :=
  lt_of_eq_of_lt p.leftKey (List.append_left_lt above)

theorem Parting.lt_right {L R : List UInt8} (p : Parting L R) {tail : List UInt8}
    (below : tail < p.y :: (p.middle ++ [KEY_DELIMITER, KEY_DELIMITER])) : p.common ++ tail < R :=
  lt_of_lt_of_eq (List.append_left_lt below) p.rightKey.symm

theorem Parting.length_le {L R : List UInt8} (p : Parting L R) {max_key_size : Nat}
    (short : R.length ≤ max_key_size) : p.common.length + 3 ≤ max_key_size := by
  have size := congrArg List.length p.rightKey
  simp only [List.length_append, List.length_cons, List.length_nil] at size
  omega

theorem ne_delimiter_of_lt {a b : UInt8} (less : a < b) : b ≠ KEY_DELIMITER := by
  rintro rfl
  exact absurd less (by simp [KEY_DELIMITER])

theorem lt_stepped {w : UInt8} (room : w ≠ STR_SUB_MAXVAL) : w < w + 1 := by
  have notTop : w.toNat ≠ 255 := by
    intro top
    exact room (UInt8.toNat_inj.mp top)
  have small := UInt8.toNat_lt w
  simp only [UInt8.lt_iff_toNat_lt, UInt8.toNat_add, UInt8.toNat_one]
  omega

theorem stepped_lt {z : UInt8} (other : z ≠ KEY_DELIMITER) : z - 1 < z := by
  have positive : z.toNat ≠ 0 := by
    intro zero
    exact other (UInt8.toNat_inj.mp zero)
  have small := UInt8.toNat_lt z
  simp only [UInt8.lt_iff_toNat_lt, UInt8.toNat_sub, UInt8.toNat_one]
  omega

section Forms

variable {L R : List UInt8} (p : Parting L R) (wellFormed : WellFormedKey L) {max_key_size : Nat}
include wellFormed

/-- A byte between the two that differ. -/
theorem Parting.separates_between (short : R.length ≤ max_key_size) {c : UInt8} (above : p.x < c)
    (below : c < p.y) :
    Separates L R (p.common ++ [c, KEY_DELIMITER, KEY_DELIMITER]) max_key_size where
  notBelow := List.le_of_lt (p.left_lt (List.cons_lt_cons_iff.mpr (.inl above)))
  below := p.lt_right (List.cons_lt_cons_iff.mpr (.inl below))
  wellFormed := by
    have other := ne_delimiter_of_lt above
    have key := p.wellFormedKey wellFormed [] (.inl other)
      (fun _ _ => .inr other) (by simp [NotBothDelimiters, other])
    simpa using key
  short := by
    have room := p.length_le short
    simpa using room

/-- The larger byte alone, when the right key goes on behind it. -/
theorem Parting.separates_larger (short : R.length ≤ max_key_size)
    (more : (p.middle ++ [KEY_DELIMITER]).head (by simp) ≠ KEY_DELIMITER) :
    Separates L R (p.common ++ [p.y, KEY_DELIMITER, KEY_DELIMITER]) max_key_size where
  notBelow := List.le_of_lt (p.left_lt (List.cons_lt_cons_iff.mpr (.inl p.smaller)))
  below := by
    obtain ⟨rest, tail, _⟩ := head_middle p.middle
    apply p.lt_right
    rw [tail]
    apply List.cons_lt_cons_iff.mpr
    right
    refine ⟨rfl, List.cons_lt_cons_iff.mpr (.inl ?_)⟩
    exact UInt8.pos_iff_ne_zero.mpr more
  wellFormed := by
    have other := ne_delimiter_of_lt p.smaller
    have key := p.wellFormedKey wellFormed [] (.inl other)
      (fun _ _ => .inr other) (by simp [NotBothDelimiters, other])
    simpa using key
  short := by
    have room := p.length_le short
    simpa using room

/-- The larger byte, and behind it a byte below that of the right key. -/
theorem Parting.separates_below (short : p.common.length + 4 ≤ max_key_size) {c : UInt8}
    (other : c ≠ KEY_DELIMITER) (below : c < (p.middle ++ [KEY_DELIMITER]).head (by simp)) :
    Separates L R (p.common ++ [p.y, c, KEY_DELIMITER, KEY_DELIMITER]) max_key_size where
  notBelow := List.le_of_lt (p.left_lt (List.cons_lt_cons_iff.mpr (.inl p.smaller)))
  below := by
    obtain ⟨rest, tail, _⟩ := head_middle p.middle
    apply p.lt_right
    rw [tail]
    apply List.cons_lt_cons_iff.mpr
    right
    exact ⟨rfl, List.cons_lt_cons_iff.mpr (.inl below)⟩
  wellFormed := by
    have larger := ne_delimiter_of_lt p.smaller
    have key := p.wellFormedKey wellFormed [c] (.inl larger)
      (fun _ _ => .inr larger) (by simp [NotBothDelimiters, other])
    simpa using key
  short := by simpa using short

/-- The smaller byte, and behind it a byte above that of the left key. -/
theorem Parting.separates_above (short : p.common.length + 4 ≤ max_key_size) {w c : UInt8}
    {rest : List UInt8} (goesOn : p.left = w :: rest) (other : c ≠ KEY_DELIMITER) (above : w < c)
    (joined : ∀ a ∈ p.common.getLast?, NotBothDelimiters a p.x) :
    Separates L R (p.common ++ [p.x, c, KEY_DELIMITER, KEY_DELIMITER]) max_key_size where
  notBelow := by
    apply List.le_of_lt
    apply p.left_lt
    rw [goesOn]
    apply List.cons_lt_cons_iff.mpr
    right
    exact ⟨rfl, List.cons_lt_cons_iff.mpr (.inl above)⟩
  below := p.lt_right (List.cons_lt_cons_iff.mpr (.inl p.smaller))
  wellFormed := by
    have key := p.wellFormedKey wellFormed [c] (.inr rfl) joined
      (by simp [NotBothDelimiters, other])
    simpa using key
  short := by simpa using short

end Forms

/-! ## The edit, branch by branch -/

@[simp] theorem store_same (base : ByteMemory) (cp : Nat) (ch : UInt8) : store base cp ch cp = ch :=
  Function.update_self ..

@[simp] theorem store_of_ne {base : ByteMemory} {cp k : Nat} (ch : UInt8) (other : k ≠ cp) :
    store base cp ch k = base k :=
  Function.update_of_ne other ..

section Edits

variable {L R : List UInt8} (p : Parting L R) {key : KeyBuffer} (holds : key.bytes = L)
include holds

/-- Bytes written behind the common part leave it in place. -/
theorem Parting.read_edited {base : ByteMemory}
    (same : ∀ k < p.common.length, base k = key.base k) (m : Nat) :
    base.read 0 (p.common.length + m) = p.common ++ base.read p.common.length m := by
  have kept : base.read 0 p.common.length = p.common := by
    apply List.ext_getElem (by simp)
    intro k _ inside
    have found := ByteMemory.of_read_append (holds.trans p.leftKey) inside
    rw [Nat.zero_add] at found
    simp [ByteMemory.read, same k inside, found]
  rw [ByteMemory.read_add, kept, Nat.zero_add]

theorem Parting.bytes_three {edited : KeyBuffer} (ends : edited.end_ = p.common.length + 2)
    (same : ∀ k < p.common.length, edited.base k = key.base k) :
    edited.bytes = p.common ++ [edited.base p.common.length, edited.base (p.common.length + 1),
      edited.base (p.common.length + 2)] := by
  rw [KeyBuffer.bytes, ends, Nat.add_assoc, p.read_edited holds same]
  rfl

theorem Parting.bytes_four {edited : KeyBuffer} (ends : edited.end_ = p.common.length + 3)
    (same : ∀ k < p.common.length, edited.base k = key.base k) :
    edited.bytes = p.common ++ [edited.base p.common.length, edited.base (p.common.length + 1),
      edited.base (p.common.length + 2), edited.base (p.common.length + 3)] := by
  rw [KeyBuffer.bytes, ends, Nat.add_assoc, p.read_edited holds same]
  rfl

theorem Parting.base_x : key.base p.common.length = p.x := by
  have found := ByteMemory.of_read (holds.trans p.leftKey)
  rwa [Nat.zero_add] at found

theorem backOffByte_separates (wellFormed : WellFormedKey L) {max_key_size : Nat}
    (short : R.length ≤ max_key_size) (room : p.common.length + 2 < key.top) {n : Int}
    (n_eq : n = (p.y.toNat : Int) - p.x.toNat) (far : 1 < n) (new_rec_goes_to_right : Bool) :
    ∃ edited, backOffByte key p.common.length n new_rec_goes_to_right = .ok edited ∧
      Separates L R edited.bytes max_key_size := by
  rw [backOffByte, if_pos room]
  refine ⟨_, rfl, ?_⟩
  rw [p.bytes_three holds rfl]
  · have between : p.x < p.x + (if new_rec_goes_to_right = true then 1 else UInt8.ofNat (n - 1).toNat) ∧
        p.x + (if new_rec_goes_to_right = true then 1 else UInt8.ofNat (n - 1).toNat) < p.y := by
      have top := UInt8.toNat_lt p.y
      cases new_rec_goes_to_right with
      | true =>
        simp only [if_true, UInt8.lt_iff_toNat_lt, UInt8.toNat_add, UInt8.toNat_one]
        omega
      | false =>
        have small : (n - 1).toNat % 2 ^ 8 = (n - 1).toNat := Nat.mod_eq_of_lt (by omega)
        simp only [Bool.false_eq_true, if_false, UInt8.lt_iff_toNat_lt, UInt8.toNat_add,
          UInt8.toNat_ofNat', small]
        omega
    have separates := p.separates_between wellFormed short between.1 between.2
    simpa [p.base_x holds] using separates
  · intro k inside
    dsimp only
    rw [store_of_ne _ (by omega), store_of_ne _ (by omega), store_of_ne _ (by omega)]

/-- The guard of the second edit keeps delimiters apart. -/
theorem Parting.joined_of_guard
    (guard : key.base p.common.length ≠ KEY_DELIMITER ∨ key.base (p.common.length - 1) ≠ KEY_DELIMITER) :
    ∀ a ∈ p.common.getLast?, NotBothDelimiters a p.x := by
  intro a last
  rw [p.base_x holds] at guard
  rcases guard with other | other
  · exact .inr other
  · left
    obtain ⟨front, common⟩ := List.getLast?_eq_some_iff.mp last
    have split : key.base.read 0 (key.end_ + 1) = front ++ a :: (p.x :: p.left) := by
      refine (holds.trans p.leftKey).trans ?_
      rw [common, List.append_assoc]
      rfl
    have found := ByteMemory.of_read split
    rw [Nat.zero_add] at found
    rw [common, List.length_append, List.length_singleton, Nat.add_sub_cancel, found] at other
    exact other

/-- The guard of the second edit says that the left key goes on. -/
theorem Parting.goes_on_of_guard (wellFormed : WellFormedKey L)
    (joined : ∀ a ∈ p.common.getLast?, NotBothDelimiters a p.x) :
    ∃ w rest, p.left = w :: rest ∧ key.base (p.common.length + 1) = w := by
  cases left : p.left with
  | nil =>
    obtain ⟨body, ends, _⟩ := wellFormed.ends
    have whole : p.common ++ [p.x] = (body ++ [KEY_DELIMITER]) ++ [KEY_DELIMITER] := by
      have same := p.leftKey.symm.trans ends
      rw [left] at same
      simpa using same
    obtain ⟨common, last⟩ := List.append_inj' whole rfl
    have isLast : KEY_DELIMITER ∈ p.common.getLast? := by
      rw [common, List.getLast?_concat]
      rfl
    rcases joined _ isLast with impossible | impossible
    · exact absurd rfl impossible
    · exact absurd (List.cons.inj last).1 impossible
  | cons w rest =>
    refine ⟨w, rest, rfl, ?_⟩
    have split : key.base.read 0 (key.end_ + 1) = (p.common ++ [p.x]) ++ w :: rest := by
      refine (holds.trans p.leftKey).trans ?_
      rw [left, List.append_assoc]
      rfl
    have found := ByteMemory.of_read split
    rwa [Nat.zero_add, List.length_append] at found

theorem Parting.edited_bytes (ch new_ch : UInt8) :
    (key.edited p.common.length ch new_ch).bytes = p.common ++
      if new_ch = KEY_DELIMITER then [ch, KEY_DELIMITER, KEY_DELIMITER]
      else [ch, new_ch, KEY_DELIMITER, KEY_DELIMITER] := by
  rw [KeyBuffer.edited]
  split
  next zero =>
    rw [p.bytes_three holds rfl]
    · simp [zero]
    · intro k inside
      dsimp only
      rw [store_of_ne _ (by omega), store_of_ne _ (by omega), store_of_ne _ (by omega)]
  next =>
    rw [p.bytes_four holds rfl]
    · simp
    · intro k inside
      dsimp only
      rw [store_of_ne _ (by omega), store_of_ne _ (by omega), store_of_ne _ (by omega),
        store_of_ne _ (by omega)]

/-- The byte is backed off or the next is taken. -/
theorem backOffNext_separates (wellFormed : WellFormedKey L) {max_key_size : Nat}
    (short : L.length ≤ max_key_size) (short' : R.length ≤ max_key_size) (smaller : L < R)
    (room : p.common.length + 3 < key.top) {mem : ByteMemory} {next : Nat}
    (atNext : mem next = (p.middle ++ [KEY_DELIMITER]).head (by simp))
    (behind : mem (next - 1) = p.y) (new_rec_goes_to_right : Bool) :
    ∃ edited, backOffNext key mem p.common.length next new_rec_goes_to_right max_key_size =
      .ok edited ∧ Separates L R edited.bytes max_key_size := by
  rw [backOffNext]
  dsimp only
  rw [if_pos room]
  split
  next guard =>
    obtain ⟨apart, notAdjacent, size⟩ := guard
    have joined := p.joined_of_guard holds apart
    obtain ⟨w, rest, goesOn, atW⟩ := p.goes_on_of_guard holds wellFormed joined
    rw [atW, atNext] at notAdjacent
    refine ⟨_, rfl, ?_⟩
    rw [p.edited_bytes holds]
    generalize z_eq : (p.middle ++ [KEY_DELIMITER]).head (by simp) = z at atNext notAdjacent
    cases new_rec_goes_to_right with
    | true =>
      simp only [steppedBytes, if_true, atW, behind, p.base_x holds]
      by_cases full : w = STR_SUB_MAXVAL
      · -- the byte is stepped to zero, and the larger byte takes its predecessor's place
        have wraps : w + 1 = KEY_DELIMITER := by
          rw [full]
          decide
        rw [if_pos full, if_pos wraps]
        apply p.separates_larger wellFormed short'
        rw [z_eq]
        exact notAdjacent.resolve_left (fun other => other full)
      · have above := lt_stepped full
        have stepped := ne_delimiter_of_lt above
        rw [if_neg full, if_neg stepped]
        exact p.separates_above wellFormed size goesOn stepped above joined
    | false =>
      simp only [steppedBytes, Bool.false_eq_true, if_false, atNext, behind, p.base_x holds]
      by_cases zero : z = KEY_DELIMITER
      · -- the right key ends behind the difference: the largest byte follows the smaller one
        have wraps : z - 1 = STR_SUB_MAXVAL := by
          rw [zero]
          decide
        have above : w < STR_SUB_MAXVAL := by
          have other : w ≠ STR_SUB_MAXVAL := notAdjacent.resolve_right (fun other => other zero)
          exact UInt8.lt_of_le_of_ne (UInt8.le_iff_toNat_le.mpr
            (Nat.le_of_lt_succ (UInt8.toNat_lt w))) other
        rw [if_pos zero, wraps, if_neg (by decide)]
        exact p.separates_above wellFormed size goesOn (by decide) above joined
      · rw [if_neg zero]
        by_cases one : z - 1 = KEY_DELIMITER
        · rw [if_pos one]
          apply p.separates_larger wellFormed short'
          rwa [z_eq]
        · rw [if_neg one]
          apply p.separates_below wellFormed size one
          rw [z_eq]
          exact stepped_lt zero
  next =>
    exact ⟨key, rfl, by rw [holds]; exact ⟨List.le_refl _, smaller, wellFormed, short⟩⟩

end Edits

/-- A key that follows the grammar does not end in three delimiters. -/
theorem KeyBuffer.not_three_delimiters {key : KeyBuffer} (wellFormed : WellFormedKey key.bytes) :
    ¬ (2 ≤ key.end_ ∧ key.base (key.end_ - 2) = KEY_DELIMITER) := by
  rintro ⟨long, third⟩
  obtain ⟨body, ends, chain⟩ := wellFormed.ends
  have size : key.end_ + 1 = body.length + 2 := by
    have sizes := congrArg List.length ends
    rwa [bytes, ByteMemory.length_read, List.length_append] at sizes
  cases List.eq_nil_or_concat body with
  | inl none =>
    rw [none, List.length_nil] at size
    omega
  | inr one =>
    obtain ⟨front, last, rfl⟩ := one
    rw [List.concat_append] at ends chain
    have found : key.base (0 + front.length) = last := ByteMemory.of_read ends
    have position : key.end_ - 2 = 0 + front.length := by
      rw [List.length_concat] at size
      omega
    rw [position, found] at third
    have two := (List.isChain_append.mp chain).2.1
    simp [third, NotBothDelimiters] at two

/-- For keys in order, whichever side the new record goes to, the key for the
parent is found without a restart and separates the two blocks. -/
theorem separatorKey_separates {L R : List UInt8} {max_key_size : Nat}
    (leftKey : WellFormedKey L) (rightKey : WellFormedKey R) (ordered : L < R)
    (short : L.length ≤ max_key_size) (short' : R.length ≤ max_key_size)
    (bounded : max_key_size ≤ MAX_KEY_SZ) {temp_key : KeyBuffer} (holds : temp_key.bytes = L)
    (allocated : temp_key.top = DBKEYSIZE MAX_KEY_SZ) {mem : ByteMemory}
    {new_rec_goes_to_right : Bool} {bs1_2 : BlkSegment} {bs1_3 : Option BlkSegment}
    (right : RightKey mem L R new_rec_goes_to_right bs1_2 bs1_3) :
    ∃ sep, separatorKey temp_key mem bs1_2 bs1_3 new_rec_goes_to_right max_key_size = .ok sep ∧
      Separates L R sep.bytes max_key_size := by
  obtain ⟨p⟩ := exists_partingOfKeys leftKey rightKey ordered
  obtain ⟨place, found, located⟩ := firstDifference_located p holds right
  have room : p.common.length + 3 < temp_key.top := by
    have size := p.length_le short'
    rw [allocated]
    have top : MAX_KEY_SZ < DBKEYSIZE MAX_KEY_SZ := by decide
    omega
  have less : p.x.toNat < p.y.toNat := UInt8.lt_iff_toNat_lt.mp p.smaller
  have edited : ∃ sep, backOff temp_key mem place new_rec_goes_to_right max_key_size = .ok sep ∧
      Separates L R sep.bytes max_key_size := by
    rw [backOff, located.cp1, located.cp2, p.base_x holds]
    rw [if_neg (by omega)]
    by_cases far : 1 < (p.y.toNat : Int) - p.x.toNat
    · rw [if_pos far]
      exact backOffByte_separates p holds leftKey short' (by omega) rfl far _
    · rw [if_neg far, if_pos (by omega)]
      exact backOffNext_separates p holds leftKey short short' ordered room located.next
        located.behind _
  obtain ⟨sep, result, separates⟩ := edited
  refine ⟨sep, ?_, separates⟩
  have twoAtTheEnd := KeyBuffer.not_three_delimiters separates.wellFormed
  simp only [separatorKey, found, result, bind, Except.bind, if_neg twoAtTheEnd]

/-- The last key of a left block, behind it leftovers of a longer key. -/
def leftKeyOf1292 : KeyBuffer where
  top := DBKEYSIZE MAX_KEY_SZ
  end_ := 6
  prev := 2
  base := fun a => [0x41, 0x00, 0xC2, 0x13, 0x93, 0x00, 0x00, 0x77, 0x77].getD a 0

/-- The next record of the block, compressed against the left key. -/
def recordOf1300 : ByteMemory := fun a =>
  [0x41, 0x00, 0xC2, 0x14, 0x00, 0x00, 0x35].getD a 0

/-- Between the keys for 1292 and 1300, the largest byte is put behind the first
difference. -/
theorem separatorKey_separates_1292_1300 :
    ∃ sep, separatorKey leftKeyOf1292 recordOf1300 ⟨0, 3⟩ (some ⟨3, 4⟩) false 255 = .ok sep ∧
      Separates [0x41, 0x00, 0xC2, 0x13, 0x93, 0x00, 0x00] [0x41, 0x00, 0xC2, 0x14, 0x00, 0x00]
        sep.bytes 255 := by
  refine separatorKey_separates ⟨by decide, [0x41, 0x00, 0xC2, 0x13, 0x93], rfl, ?_⟩
    ⟨by decide, [0x41, 0x00, 0xC2, 0x14], rfl, ?_⟩ (by decide) (by decide) (by decide) (by decide)
    rfl rfl (.shared 3 [0x35] (by decide) (by decide))
  · simp [NotBothDelimiters, KEY_DELIMITER]
  · simp [NotBothDelimiters, KEY_DELIMITER]

end Ydb
