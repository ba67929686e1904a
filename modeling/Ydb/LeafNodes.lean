import Ydb.RecordReplacement
import Ydb.Lib.FragmentAssembly

/-!
# The nodes of a leaf

What a leaf holds are nodes, keys with their values. Its bytes behind the header are the records of these
nodes, and these bytes do not depend on where they stand: an update of the leaf makes a string of bytes from
parts of the old one, and the nodes of the new leaf are read off that string.
-/

namespace Ydb.BlockUpdate

open Lib

/-! ## Records as strings -/

/-- A key and its value. -/
structure Node where
  key : List UInt8
  value : List UInt8
deriving DecidableEq, Repr

/-- A memory that begins with `bytes`. -/
def bytesAt (bytes : List UInt8) : ByteMemory := fun a => bytes.getD a 0

/-- A record header. -/
structure IsHeader (hdr : List UInt8) (size cmpc : Nat) : Prop where
  length : hdr.length = SIZEOF_rec_hdr
  rsiz : rsiz (bytesAt hdr) 0 = size
  cmpc : EVAL_CMPC (bytesAt hdr) 0 = cmpc

/-- The size of a record with a compression count. -/
def Node.size (node : Node) (cmpc : Nat) : Nat := SIZEOF_rec_hdr + (node.key.length - cmpc) + node.value.length

/-- The records of nodes in a leaf, behind a record with the key `prev`. -/
inductive Stored : List UInt8 → List UInt8 → List Node → Prop
  | nil {prev : List UInt8} : Stored prev [] []
  | cons {prev hdr rest : List UInt8} {node : Node} {nodes : List Node} (wellFormed : WellFormedKey node.key)
      (short : node.key.length ≤ MAX_KEY_SZ) (order : prev < node.key)
      (header : IsHeader hdr (node.size (commonPrefix prev node.key)) (commonPrefix prev node.key))
      (more : Stored node.key rest nodes) :
      Stored prev (hdr ++ node.key.drop (commonPrefix prev node.key) ++ node.value ++ rest) (node :: nodes)

/-- The key in front of what follows. -/
def lastNode (prev : List UInt8) (nodes : List Node) : List UInt8 := nodes.getLast?.elim prev Node.key

variable {prev bytes more k : List UInt8} {node : Node} {nodes others : List Node}

theorem lastNode_cons : lastNode prev (node :: nodes) = lastNode node.key nodes := getLast?_elim_cons _ _ _ _

theorem Stored.append (stored : Stored prev bytes nodes) (behind : Stored (lastNode prev nodes) more others) :
    Stored prev (bytes ++ more) (nodes ++ others) := by
  induction stored with
  | nil => exact behind
  | cons wellFormed short order header _ ih =>
    rw [lastNode_cons] at behind
    rw [List.append_assoc, List.cons_append]
    exact .cons wellFormed short order header (ih behind)

/-- All nodes are above the key in front. -/
theorem Stored.lt_all (stored : Stored prev bytes nodes) : ∀ n ∈ nodes, prev < n.key := by
  induction stored with
  | nil => exact fun n member => absurd member List.not_mem_nil
  | cons _ _ order _ _ ih =>
    intro n member
    cases List.mem_cons.mp member with
    | inl same => exact same ▸ order
    | inr behind => exact List.lt_trans order (ih n behind)

/-- The keys increase. -/
theorem Stored.sorted (stored : Stored prev bytes nodes) : nodes.Pairwise fun a b => a.key < b.key := by
  induction stored with
  | nil => exact .nil
  | cons _ _ _ _ more ih => exact .cons more.lt_all ih

/-- The keys of records are well formed. -/
theorem Stored.grammar (stored : Stored prev bytes nodes) :
    ∀ n ∈ nodes, WellFormedKey n.key ∧ n.key.length ≤ MAX_KEY_SZ := by
  induction stored with
  | nil => exact fun n member => absurd member List.not_mem_nil
  | cons wellFormed short _ _ _ ih =>
    intro n member
    cases List.mem_cons.mp member with
    | inl same => exact same ▸ ⟨wellFormed, short⟩
    | inr behind => exact ih n behind

theorem lastNode_grammar (stored : Stored [] bytes nodes) :
    lastNode [] nodes = [] ∨ WellFormedKey (lastNode [] nodes) := by
  unfold lastNode
  cases last : nodes.getLast? with
  | none => exact .inl rfl
  | some n => exact .inr (stored.grammar n (List.mem_of_getLast? last)).1

/-- A key parts from the one before it in front of its last byte that is not a delimiter, or there. -/
theorem shared_add_three {key : List UInt8} (wellFormed : WellFormedKey key) (grammar : prev = [] ∨ WellFormedKey prev)
    (order : prev < key) : commonPrefix prev key + 3 ≤ key.length := by
  have parts := partsAt_commonPrefix order
  have least := wellFormed.parts_le grammar parts
  generalize commonPrefix prev key = n at parts least ⊢
  by_contra short
  obtain ⟨body, rfl, _⟩ := wellFormed.ends
  rw [List.length_append] at least short
  have place : n = body.length := by
    simp only [List.length_cons, List.length_nil] at least short
    omega
  have delimiter : (body ++ [KEY_DELIMITER, KEY_DELIMITER])[n]? = some KEY_DELIMITER := by
    rw [place, List.getElem?_append_right (Nat.le_refl _), Nat.sub_self]
    rfl
  cases grammar with
  | inl empty =>
    subst empty
    have none : n = 0 := by
      by_contra more
      have impossible := parts.agree 0 (by omega)
      rw [List.getElem?_nil, eq_comm, List.getElem?_eq_none_iff, List.length_append] at impossible
      simp at impossible
    subst none
    rw [← List.head?_eq_getElem?] at delimiter
    exact wellFormed.starts delimiter
  | inr before =>
    obtain ⟨x, y, _, found, smaller⟩ := before.parts wellFormed parts
    rw [delimiter] at found
    obtain rfl := Option.some.inj found
    exact absurd smaller (by simp [KEY_DELIMITER])

/-! ## Headers -/

/-- A header holds the size and the compression count. -/
theorem rec_hdr_isHeader {size cmpc : Nat} {cmpc2 : UInt8} (small : size < 2 ^ 16) (count : cmpc ≤ 1020) :
    IsHeader (rec_hdr size cmpc cmpc2) size cmpc := by
  have sizeBytes : ((size : Int) % 2 ^ 16).toNat = size := by omega
  have header : rec_hdr size cmpc cmpc2 =
      [UInt8.ofNat size, UInt8.ofNat (size / 256), (SET_CMPC cmpc2 cmpc).1, (SET_CMPC cmpc2 cmpc).2] := by
    unfold rec_hdr
    rw [sizeBytes]
  rw [header]
  exact ⟨rfl, rsiz_of_bytes small rfl rfl, EVAL_SET_CMPC count rfl rfl⟩

theorem length_rec_hdr (size : Int) (cmpc : Nat) (cmpc2 : UInt8) : (rec_hdr size cmpc cmpc2).length = SIZEOF_rec_hdr :=
  rfl

/-! ## Records in memory -/

section Memory

variable {buffaddr : ByteMemory} {pTop rp last : Nat} {recs before after : List BlockRec}

theorem read_eq_append {addr len : Nat} {front back : List UInt8} (read : buffaddr.read addr len = front ++ back) :
    buffaddr.read addr front.length = front ∧
      buffaddr.read (addr + front.length) (len - front.length) = back ∧ front.length ≤ len := by
  have lens := congrArg List.length read
  rw [ByteMemory.length_read, List.length_append] at lens
  have within : front.length ≤ len := by omega
  refine ⟨?_, ?_, within⟩
  · rw [ByteMemory.read_take within, read, List.take_left]
  · rw [ByteMemory.read_drop _ _ within, read, List.drop_left]

theorem bytesAt_read {addr len i : Nat} (inside : i < len) :
    bytesAt (buffaddr.read addr len) i = buffaddr (addr + i) := by
  unfold bytesAt
  rw [List.getD_eq_getElem?_getD, ByteMemory.read_getElem? inside]
  rfl

theorem isHeader_read {size cmpc : Nat} :
    IsHeader (buffaddr.read rp SIZEOF_rec_hdr) size cmpc ↔
      rsiz buffaddr rp = size ∧ EVAL_CMPC buffaddr rp = cmpc := by
  have sizes : rsiz (bytesAt (buffaddr.read rp SIZEOF_rec_hdr)) 0 = rsiz buffaddr rp :=
    rsiz_congr (bytesAt_read (by decide)) (bytesAt_read (by decide))
  have counts : EVAL_CMPC (bytesAt (buffaddr.read rp SIZEOF_rec_hdr)) 0 = EVAL_CMPC buffaddr rp :=
    EVAL_CMPC_congr (bytesAt_read (by decide)) (bytesAt_read (by decide))
  constructor
  · intro header
    exact ⟨sizes.symm.trans header.rsiz, counts.symm.trans header.cmpc⟩
  · intro fields
    exact ⟨ByteMemory.length_read, sizes.trans fields.1, counts.trans fields.2⟩

/-- The node of a record. -/
def nodeOf (buffaddr : ByteMemory) (r : BlockRec) : Node := ⟨r.key, recordData buffaddr r⟩

/-- The records in front of a place, and behind it. -/
theorem Records.split (records : Records buffaddr true pTop prev rp (before ++ after) last) :
    ∃ place, rp ≤ place ∧ Stored prev (buffaddr.read rp (place - rp)) (before.map (nodeOf buffaddr)) ∧
      Records buffaddr true pTop (lastKey prev before) place after last := by
  induction before generalizing prev rp with
  | nil =>
    refine ⟨rp, Nat.le_refl _, ?_, records⟩
    rw [Nat.sub_self]
    exact .nil
  | cons r before ih =>
    cases records with
    | @record _ key _ _ _ wellFormed short order cmpc bytes size more =>
      obtain ⟨place, above, stored, behind⟩ := ih more
      rw [if_pos rfl, Nat.add_zero] at size
      generalize sizeIs : rsiz buffaddr rp = s at *
      generalize widthIs : key.length - commonPrefix prev key = width at *
      have offset : dataOffset buffaddr ⟨rp, key⟩ = SIZEOF_rec_hdr + width := by
        unfold dataOffset
        rw [cmpc, widthIs]
      have data : recordData buffaddr ⟨rp, key⟩ =
          buffaddr.read (rp + SIZEOF_rec_hdr + width) (s - (SIZEOF_rec_hdr + width)) := by
        unfold recordData
        rw [offset, sizeIs, Nat.add_assoc]
      have parts : place - rp = SIZEOF_rec_hdr + width + (s - (SIZEOF_rec_hdr + width)) + (place - (rp + s)) := by
        omega
      have next : rp + (SIZEOF_rec_hdr + width + (s - (SIZEOF_rec_hdr + width))) = rp + s := by omega
      rw [lastKey_cons]
      refine ⟨place, by omega, ?_, behind⟩
      rw [parts, ByteMemory.read_add, ByteMemory.read_add, ByteMemory.read_add, bytes, next,
        ← Nat.add_assoc, ← data, List.map_cons]
      refine @Stored.cons _ _ _ (nodeOf buffaddr ⟨rp, key⟩) _ wellFormed short order ?_ stored
      refine isHeader_read.mpr ⟨?_, cmpc⟩
      unfold Node.size nodeOf
      rw [widthIs, data, ByteMemory.length_read, sizeIs]
      omega

theorem lastKey_node : lastKey prev before = lastNode prev (before.map (nodeOf buffaddr)) := by
  unfold lastKey lastNode
  rw [List.getLast?_map]
  cases before.getLast? <;> rfl

/-- The records of a block hold their nodes. -/
theorem Records.stored (records : Records buffaddr true pTop prev rp recs last) :
    Stored prev (buffaddr.read rp (pTop - rp)) (recs.map (nodeOf buffaddr)) := by
  rw [← List.append_nil recs] at records
  obtain ⟨place, _, stored, behind⟩ := Records.split records
  cases behind with
  | top => exact stored
  | star index => cases index

/-- Where the nodes are stored there are records. -/
theorem Stored.records (stored : Stored prev bytes nodes) (read : buffaddr.read rp (pTop - rp) = bytes)
    (room : rp ≤ pTop) :
    ∃ recs, Records buffaddr true pTop prev rp recs pTop ∧ recs.map (nodeOf buffaddr) = nodes := by
  induction stored generalizing rp with
  | nil =>
    have lens := congrArg List.length read
    rw [ByteMemory.length_read, List.length_nil] at lens
    obtain rfl : rp = pTop := by omega
    exact ⟨[], .top rfl, rfl⟩
  | @cons prev hdr rest node nodes wellFormed short order header more ih =>
    generalize countIs : commonPrefix prev node.key = c at *
    obtain ⟨front, behind, within⟩ := read_eq_append read
    obtain ⟨upto, value, _⟩ := read_eq_append front
    obtain ⟨top, key, _⟩ := read_eq_append upto
    have width : (hdr ++ node.key.drop c).length = SIZEOF_rec_hdr + (node.key.length - c) := by
      rw [List.length_append, header.length, List.length_drop]
    have whole : (hdr ++ node.key.drop c ++ node.value).length = node.size c := by
      rw [List.length_append, width]
      rfl
    rw [whole] at behind within
    rw [whole, width] at value
    rw [width, header.length, Nat.add_sub_cancel_left] at key
    rw [header.length] at top
    rw [← top] at header
    obtain ⟨size, cmpc⟩ := isHeader_read.mp header
    have data : node.size c - (SIZEOF_rec_hdr + (node.key.length - c)) = node.value.length :=
      Nat.add_sub_cancel_left _ _
    rw [data] at value
    obtain ⟨recs, records, same⟩ := ih
      (by rw [← behind]; congr 1; omega : buffaddr.read (rp + node.size c) (pTop - (rp + node.size c)) = rest)
      (by omega)
    refine ⟨⟨rp, node.key⟩ :: recs, ?_, ?_⟩
    · apply Records.record wellFormed short order
      · rw [cmpc, countIs]
      · rw [countIs]
        exact key
      · rw [if_pos rfl, Nat.add_zero, countIs, size]
        exact Nat.le_add_right _ _
      · rw [size]
        exact records
    · rw [List.map_cons, same]
      congr 1
      unfold nodeOf recordData dataOffset
      dsimp only
      rw [cmpc, size, data, value]

end Memory

/-! ## Leaves -/

/-- A leaf with the given nodes. -/
structure Leaf (blk_size : Nat) (buffaddr : ByteMemory) (nodes : List Node) : Prop where
  fits : bsiz buffaddr ≤ blk_size
  small : blk_size ≤ MAX_DB_BLK_SIZE
  header : SIZEOF_blk_hdr ≤ bsiz buffaddr
  level : levl buffaddr = 0
  stored : Stored [] (buffaddr.read SIZEOF_blk_hdr (bsiz buffaddr - SIZEOF_blk_hdr)) nodes

variable {blk_size : Nat} {buffaddr : ByteMemory}

/-- The leaves are the well-formed blocks of level 0. -/
theorem leaf_iff : Leaf blk_size buffaddr nodes ↔
    ∃ recs, WellFormedBlock blk_size buffaddr recs (bsiz buffaddr) ∧ levl buffaddr = 0 ∧
      recs.map (nodeOf buffaddr) = nodes := by
  constructor
  · intro leaf
    obtain ⟨recs, records, same⟩ := leaf.stored.records rfl leaf.header
    refine ⟨recs, ⟨leaf.fits, leaf.small, ?_⟩, leaf.level, same⟩
    rw [decide_eq_true leaf.level]
    exact records
  · intro ⟨recs, block, level, same⟩
    have records := block.records
    rw [decide_eq_true level] at records
    exact ⟨block.fits, block.small, records.le_top, level, same ▸ Records.stored records⟩

/-- A leaf with `^a` and `^a(1)`. -/
def smallLeaf : ByteMemory := fun a =>
  [0, 0, 0, 0, 34, 0, 0, 0, 0, 0, 0, 0, 0, 0, 0, 0,
    9, 0, 0, 0, 0x61, 0, 0, 0x34, 0x31,
    9, 0, 2, 0, 0xbf, 0x11, 0, 0, 5].getD a 0

/-- `^a` and `^a(1)`. -/
def smallNodes : List Node := [⟨[0x61, 0, 0], [0x34, 0x31]⟩, ⟨[0x61, 0, 0xbf, 0x11, 0, 0], [5]⟩]

theorem smallNodes_grammar : WellFormedKey [0x61, 0, 0] ∧ WellFormedKey [0x61, 0, 0xbf, 0x11, 0, 0] :=
  ⟨⟨by decide, [0x61], rfl, by simp [NotBothDelimiters, KEY_DELIMITER]⟩,
    ⟨by decide, [0x61, 0, 0xbf, 0x11], rfl, by simp [NotBothDelimiters, KEY_DELIMITER]⟩⟩

/-- The leaf holds its nodes. -/
theorem smallLeaf_holds : Leaf 512 smallLeaf smallNodes := by
  obtain ⟨first, second⟩ := smallNodes_grammar
  refine leaf_iff.mpr ⟨[⟨16, [0x61, 0, 0]⟩, ⟨25, [0x61, 0, 0xbf, 0x11, 0, 0]⟩], ⟨by decide, by decide, ?_⟩, by decide,
    by decide⟩
  refine .record first (by decide) (by decide) (by decide) (by decide) (by decide) ?_
  refine .record second (by decide) (by decide) (by decide) (by decide) (by decide) ?_
  exact .top (by decide)

end Ydb.BlockUpdate
