import Ydb.TreeReads

/-!
# The next subscript and the next node

`gvcst_order2` cuts the key of the node that it finds behind the subscript in which it parts from the key of the
search, and `gvcst_query2` returns the whole key.
-/

namespace Ydb.GlobalTree

open Lib BlockUpdate

variable {db : Database} {t : List UInt8} {blk nLevl root : Nat}
variable {nodes left below above right others : List Node} {node : Node} {gv_altkey gv_currkey : KeyBuffer}
variable {buffaddr base : ByteMemory} {bh : SrchBlkStatus}

/-! ## Copying -/

/-- A subscript is copied up to its end. -/
theorem copySubscript_eq {front : List UInt8} {ctop alt_top turns c1 c2 : Nat}
    (bytes : buffaddr.read c2 (front.length + 1) = front ++ [0]) (nonzero : ∀ b ∈ front, b ≠ 0)
    (within : c2 + front.length < ctop) (room : c1 + front.length < alt_top) (enough : front.length < turns) :
    ∃ base', copySubscript buffaddr ctop alt_top turns c1 c2 base = some (base', c1 + front.length + 1) ∧
      base'.read c1 (front.length + 2) = front ++ [0, 0] ∧ ∀ a < c1, base' a = base a := by
  induction front generalizing c1 c2 base turns with
  | nil =>
    obtain ⟨turns, rfl⟩ : ∃ n, turns = n + 1 := ⟨turns - 1, by simp only [List.length_nil] at enough; omega⟩
    have zero : buffaddr c2 = 0 := List.head_eq_of_cons_eq bytes
    rw [List.length_nil] at within room
    refine ⟨store (store base c1 0) (c1 + 1) 0, ?_, ?_, ?_⟩
    · rw [copySubscript, if_neg (by omega)]
      dsimp only
      rw [if_pos zero, zero]
      rfl
    · have two : (store (store base c1 0) (c1 + 1) 0).read c1 2 =
          [store (store base c1 0) (c1 + 1) 0 c1, store (store base c1 0) (c1 + 1) 0 (c1 + 1)] := rfl
      rw [List.length_nil, Nat.zero_add, two, store_other _ (by omega), store_same, store_same]
      rfl
    · intro a less
      rw [store_other _ (by omega), store_other _ (by omega)]
  | cons x front ih =>
    obtain ⟨turns, rfl⟩ : ∃ n, turns = n + 1 := ⟨turns - 1, by simp only [List.length_cons] at enough; omega⟩
    rw [List.length_cons] at within room enough
    have split : buffaddr.read c2 (1 + (front.length + 1)) = [x] ++ (front ++ [0]) := by
      rw [Nat.add_comm 1]
      exact bytes
    obtain ⟨first, rest, _⟩ := read_eq_append split
    have here : buffaddr c2 = x := List.head_eq_of_cons_eq first
    have rest' : buffaddr.read (c2 + 1) (front.length + 1) = front ++ [0] := by
      rw [← rest]
      congr 1
      exact (Nat.add_sub_cancel_left 1 (front.length + 1)).symm
    obtain ⟨base', result, same, before⟩ := @ih (store base c1 x) turns (c1 + 1) (c2 + 1) rest'
      (fun b member => nonzero b (List.mem_cons_of_mem _ member)) (by omega) (by omega) (by omega)
    refine ⟨base', ?_, ?_, ?_⟩
    · rw [copySubscript, if_neg (by omega)]
      dsimp only
      rw [here, if_neg (nonzero x List.mem_cons_self), result, List.length_cons]
      congr 2
      omega
    · have parts : (x :: front).length + 2 = 1 + (front.length + 2) := by
        rw [List.length_cons]
        omega
      have one : base'.read c1 1 = [x] := by
        have byte : base' c1 = x := by rw [before c1 (by omega), store_same]
        exact congrArg (fun b => [b]) byte
      rw [parts, ByteMemory.read_add, one, same]
      rfl
    · intro a less
      rw [before a (by omega), store_other _ (by omega)]

/-- A key is copied up to its end. -/
theorem copyKey_eq {front : List UInt8} {dstTop turns dstEnd src : Nat}
    (bytes : buffaddr.read src (front.length + 2) = front ++ [KEY_DELIMITER, KEY_DELIMITER])
    (chain : (front ++ [KEY_DELIMITER]).IsChain NotBothDelimiters) (room : dstEnd + front.length < dstTop)
    (enough : front.length < turns) :
    ∃ base', copyKey buffaddr dstTop turns dstEnd src base = some (base', dstEnd + front.length + 1) ∧
      base'.read dstEnd (front.length + 2) = front ++ [KEY_DELIMITER, KEY_DELIMITER] ∧
      ∀ a < dstEnd, base' a = base a := by
  induction front generalizing dstEnd src base turns with
  | nil =>
    obtain ⟨turns, rfl⟩ : ∃ n, turns = n + 1 := ⟨turns - 1, by simp only [List.length_nil] at enough; omega⟩
    have pair : [buffaddr src, buffaddr (src + 1)] = [KEY_DELIMITER, KEY_DELIMITER] := bytes
    have first : buffaddr src = KEY_DELIMITER := List.head_eq_of_cons_eq pair
    have second : buffaddr (src + 1) = KEY_DELIMITER :=
      List.head_eq_of_cons_eq (List.tail_eq_of_cons_eq pair)
    rw [List.length_nil] at room
    refine ⟨store (store base dstEnd KEY_DELIMITER) (dstEnd + 1) KEY_DELIMITER, ?_, ?_, ?_⟩
    · rw [copyKey, if_neg (by omega)]
      dsimp only
      rw [if_pos ⟨first, second⟩, first]
      rfl
    · have two : (store (store base dstEnd KEY_DELIMITER) (dstEnd + 1) KEY_DELIMITER).read dstEnd 2 =
          [store (store base dstEnd KEY_DELIMITER) (dstEnd + 1) KEY_DELIMITER dstEnd,
            store (store base dstEnd KEY_DELIMITER) (dstEnd + 1) KEY_DELIMITER (dstEnd + 1)] := rfl
      rw [List.length_nil, Nat.zero_add, two, store_other _ (by omega), store_same, store_same]
      rfl
    · intro a less
      rw [store_other _ (by omega), store_other _ (by omega)]
  | cons x front ih =>
    obtain ⟨turns, rfl⟩ : ∃ n, turns = n + 1 := ⟨turns - 1, by simp only [List.length_cons] at enough; omega⟩
    rw [List.length_cons] at room enough
    have split : buffaddr.read src (1 + (front.length + 2)) = [x] ++ (front ++ [KEY_DELIMITER, KEY_DELIMITER]) := by
      rw [Nat.add_comm 1]
      exact bytes
    obtain ⟨first, rest, _⟩ := read_eq_append split
    have here : buffaddr src = x := List.head_eq_of_cons_eq first
    have rest' : buffaddr.read (src + 1) (front.length + 2) = front ++ [KEY_DELIMITER, KEY_DELIMITER] := by
      rw [← rest]
      congr 1
      exact (Nat.add_sub_cancel_left 1 (front.length + 2)).symm
    have notBoth : ¬ (buffaddr src = KEY_DELIMITER ∧ buffaddr (src + 1) = KEY_DELIMITER) := by
      intro both
      rw [here] at both
      have next : ∃ y more, front ++ [KEY_DELIMITER] = y :: more ∧ buffaddr (src + 1) = y := by
        cases front with
        | nil =>
          refine ⟨KEY_DELIMITER, [], rfl, ?_⟩
          exact List.head_eq_of_cons_eq rest'
        | cons y front =>
          refine ⟨y, _, rfl, ?_⟩
          exact @ByteMemory.of_read buffaddr (src + 1) _ [] _ y rest'
      obtain ⟨y, more, whole, second⟩ := next
      rw [List.cons_append, whole, List.isChain_cons_cons] at chain
      rw [second] at both
      cases chain.1 with
      | inl other => exact other both.1
      | inr other => exact other both.2
    obtain ⟨base', result, same, before⟩ := @ih (store base dstEnd x) turns (dstEnd + 1) (src + 1)
      rest' chain.tail (by omega) (by omega)
    refine ⟨base', ?_, ?_, ?_⟩
    · rw [copyKey, if_neg (by omega)]
      dsimp only
      rw [if_neg notBoth, here, result, List.length_cons]
      congr 2
      omega
    · have parts : (x :: front).length + 2 = 1 + (front.length + 2) := by
        rw [List.length_cons]
        omega
      have one : base'.read dstEnd 1 = [x] := by
        have byte : base' dstEnd = x := by rw [before dstEnd (by omega), store_same]
        exact congrArg (fun b => [b]) byte
      rw [parts, ByteMemory.read_add, one, same]
      rfl
    · intro a less
      rw [before a (by omega), store_other _ (by omega)]

/-- The bytes of the key from a place on that the record holds. -/
theorem HeadRecord.key_bytes {place c m : Nat} {rest : List UInt8} (head : HeadRecord buffaddr place c node rest)
    (shared : c ≤ m) (inside : m ≤ node.key.length) :
    buffaddr.read (place + SIZEOF_rec_hdr + (m - c)) (node.key.length - m) = node.key.drop m := by
  have data := head.data
  rw [List.append_assoc] at data
  obtain ⟨key, _, _⟩ := read_eq_append data
  rw [List.length_drop] at key
  have dropped := ByteMemory.read_drop buffaddr (place + SIZEOF_rec_hdr) (by omega : m - c ≤ node.key.length - c)
  have width : node.key.length - c - (m - c) = node.key.length - m := by omega
  have sum : c + (m - c) = m := by omega
  rw [key, List.drop_drop, width, sum] at dropped
  exact dropped

/-! ## $ORDER -/

/-- A key without what stands behind the subscript that the byte at `p` is in. -/
def nodeUpto (p : Nat) (key : List UInt8) : List UInt8 :=
  key.take p ++ (key.drop p).takeWhile (fun b => b ≠ 0) ++ [0, 0]

/-- The subscript that a byte of a key is in ends in front of the last delimiter. -/
theorem exists_cut {key : List UInt8} {m : Nat} (wellFormed : WellFormedKey key) (inside : m + 2 ≤ key.length) :
    ∃ front more, key.drop m = front ++ 0 :: more ∧ (key.drop m).takeWhile (fun b => b ≠ 0) = front ∧
      (∀ b ∈ front, b ≠ 0) ∧ more ≠ [] := by
  obtain ⟨body, ends, _⟩ := wellFormed.ends
  have lens := congrArg List.length ends
  rw [List.length_append] at lens
  simp only [List.length_cons, List.length_nil] at lens
  have tail : key.drop m = body.drop m ++ [0, 0] := by
    rw [ends, List.drop_append_of_le_length (by omega)]
  have nonzero : ∀ b ∈ (body.drop m).takeWhile (fun b => b ≠ 0), b ≠ 0 := by
    intro b member
    simpa using List.mem_takeWhile_imp member
  have zeros : ([0, 0] : List UInt8).takeWhile (fun b => b ≠ 0) = [] := rfl
  have split := @List.takeWhile_append_dropWhile _ (fun b : UInt8 => b ≠ 0) (body.drop m)
  refine ⟨(body.drop m).takeWhile (fun b => b ≠ 0), ?_⟩
  rw [tail]
  cases rest : (body.drop m).dropWhile (fun b => b ≠ 0) with
  | nil =>
    rw [rest, List.append_nil] at split
    refine ⟨[0], by rw [split], ?_, nonzero, by decide⟩
    rw [List.takeWhile_append_of_pos, zeros, List.append_nil, split]
    intro b member
    rw [← split] at member
    simpa using nonzero b member
  | cons x behind =>
    have stops := List.head?_dropWhile_not (fun b : UInt8 => decide (b ≠ 0)) (body.drop m)
    rw [rest] at stops
    have isZero : x = 0 := by simpa using stops
    subst isZero
    rw [rest] at split
    refine ⟨behind ++ [0, 0], ?_, ?_, nonzero, by simp⟩
    · conv_lhs => rw [← split]
      simp only [List.append_assoc, List.cons_append]
    · conv_lhs => rw [← split]
      rw [List.append_assoc, List.takeWhile_append_of_pos (by
        intro b member
        simpa using nonzero b member), List.cons_append, List.takeWhile_cons_of_neg (by simp), List.append_nil]

theorem found_shared (found : SearchedLeaf buffaddr t bh below (node :: others)) (greater : t < node.key) :
    commonPrefix (lastNode [] below) node.key ≤ commonPrefix t node.key ∧
      bh.curr_rec.match_ = commonPrefix t node.key ∧ commonPrefix t node.key < t.length + 1 :=
  ⟨shared_le found greater, found.curr, Nat.lt_succ_of_le (commonPrefix_le _ _)⟩

/-- The copied subscript, from the place where the keys part. -/
theorem copySubscript_found (target : WellFormedTarget gv_currkey) (room : MAX_KEY_SZ ≤ gv_altkey.top)
    (found : SearchedLeaf buffaddr gv_currkey.bytes bh below (node :: others)) (greater : gv_currkey.bytes < node.key) :
    ∃ base end_, copySubscript buffaddr (bh.curr_rec.offset + rsiz buffaddr bh.curr_rec.offset) (gv_altkey.top - 1)
        (rsiz buffaddr bh.curr_rec.offset) bh.curr_rec.match_
        (bh.curr_rec.offset + SIZEOF_rec_hdr + bh.curr_rec.match_ - EVAL_CMPC buffaddr bh.curr_rec.offset)
        (gv_altkey.base.store 0 (gv_currkey.base.read 0 bh.curr_rec.match_)) = some (base, end_) ∧
      ({ gv_altkey with base := base, end_ := end_ } : KeyBuffer).bytes =
        nodeUpto (commonPrefix gv_currkey.bytes node.key) node.key := by
  obtain ⟨rest, head, _⟩ := found.head
  obtain ⟨shared, curr, _⟩ := found_shared found greater
  obtain ⟨wellFormed, short⟩ := found.back.grammar node List.mem_cons_self
  have three := shared_add_three wellFormed (.inr target.wellFormed) greater
  have agree := take_commonPrefix gv_currkey.bytes node.key
  have inside := commonPrefix_le gv_currkey.bytes node.key
  have width := gv_currkey.length_bytes
  have count := head.cmpc
  have size := head.rsiz
  rw [curr]
  unfold nodeUpto
  generalize commonPrefix gv_currkey.bytes node.key = m at *
  have keyBytes := HeadRecord.key_bytes head shared (by omega : m ≤ node.key.length)
  generalize commonPrefix (lastNode [] below) node.key = c at *
  obtain ⟨front, more, whole, upto, nonzero, some⟩ := exists_cut wellFormed (by omega : m + 2 ≤ node.key.length)
  have widths := congrArg List.length whole
  rw [List.length_drop, List.length_append, List.length_cons] at widths
  have positive := List.length_pos_iff.mpr some
  have place : bh.curr_rec.offset + SIZEOF_rec_hdr + m - c = bh.curr_rec.offset + SIZEOF_rec_hdr + (m - c) := by omega
  rw [whole] at keyBytes
  have bytes : buffaddr.read (bh.curr_rec.offset + SIZEOF_rec_hdr + (m - c)) (front.length + 1) = front ++ [0] := by
    have split : front ++ 0 :: more = (front ++ [0]) ++ more := by simp only [List.append_assoc, List.cons_append,
      List.nil_append]
    rw [split] at keyBytes
    obtain ⟨first, _, _⟩ := read_eq_append keyBytes
    rw [List.length_append] at first
    exact first
  unfold Node.size at size
  unfold MAX_KEY_SZ at short room
  obtain ⟨base, result, same, before⟩ := @copySubscript_eq buffaddr (gv_altkey.base.store 0 (gv_currkey.base.read 0 m))
    front (bh.curr_rec.offset + rsiz buffaddr bh.curr_rec.offset) (gv_altkey.top - 1)
    (rsiz buffaddr bh.curr_rec.offset) m _ bytes nonzero (by omega) (by omega) (by omega)
  refine ⟨base, m + front.length + 1, ?_, ?_⟩
  · rw [count, place]
    exact result
  · have sum : m + front.length + 1 + 1 = m + (front.length + 2) := by omega
    have first : base.read 0 m = node.key.take m := by
      have copied : base.read 0 m = gv_currkey.base.read 0 m := by
        have stored := ByteMemory.read_store gv_altkey.base 0 (gv_currkey.base.read 0 m)
        rw [ByteMemory.length_read] at stored
        rw [← stored]
        apply ByteMemory.read_congr
        intro i less
        rw [Nat.zero_add]
        exact before i less
      rw [copied, ← agree]
      exact ByteMemory.read_take (by omega)
    unfold KeyBuffer.bytes
    dsimp only
    rw [sum, ByteMemory.read_add, Nat.zero_add, first, same, upto, List.append_assoc]

/-- $ORDER finds the first node that is not below the key, if it begins like the key up to the last subscript, and
returns its key up to the subscript that differs. -/
theorem gvcst_order2_next (tree : TreeHolds db root nodes) (target : WellFormedTarget gv_currkey)
    (room : MAX_KEY_SZ ≤ gv_altkey.top) (absent : ∀ n ∈ nodes, n.key ≠ gv_currkey.bytes) :
    firstFrom gv_currkey.bytes nodes = none ∧ gvcst_order2 db gv_altkey gv_currkey root = .ok (false, gv_altkey) ∨
      ∃ node altkey, firstFrom gv_currkey.bytes nodes = some node ∧
        gvcst_order2 db gv_altkey gv_currkey root =
          .ok (commonPrefix gv_currkey.bytes node.key ≥ gv_currkey.prev, altkey) ∧
        altkey.bytes = nodeUpto (commonPrefix gv_currkey.bytes node.key) node.key ∧ altkey.top = gv_altkey.top := by
  obtain ⟨hist, _, left, below, above, right, result, path, around⟩ := gvcst_search_path tree target room false
  unfold gvcst_order2
  rw [result]
  dsimp only
  cases currentRecord_path path around target room with
  | inl none =>
    rw [none.2]
    exact .inl ⟨none.1, rfl⟩
  | inr some =>
    obtain ⟨bh, below', node, others, record, first, found⟩ := some
    have notLess := found.notLess node List.mem_cons_self
    have other := absent node (List.mem_of_find?_eq_some first)
    have greater : gv_currkey.bytes < node.key := by
      by_contra notGreater
      exact other (List.le_antisymm (List.not_lt.mp notGreater) (List.not_lt.mp notLess))
    obtain ⟨base, end_, copied, bytes⟩ := copySubscript_found target room found greater
    have curr : bh.status.curr_rec.match_ = commonPrefix gv_currkey.bytes node.key := found.curr
    rw [record]
    dsimp only
    rw [copied]
    exact .inr ⟨node, _, first, by rw [curr], bytes, rfl⟩

/-! ## $QUERY -/

/-- The key of a record, expanded. -/
theorem expandedKey_eq {exp_key : KeyBuffer} {key : List UInt8} {dstEnd : Nat} (wellFormed : WellFormedKey key)
    (length : key.length = dstEnd + 1) (bytes : base.read 0 (dstEnd + 1) = key) :
    ∃ expanded, expandedKey exp_key base dstEnd = .ok expanded ∧ expanded.bytes = key ∧
      expanded.top = exp_key.top := by
  obtain ⟨body, ends, chain⟩ := wellFormed.ends
  have long := wellFormed.length_ge
  have byteAt : ∀ i < dstEnd + 1, key[i]? = some (base i) := by
    intro i less
    have found := @ByteMemory.read_getElem? base 0 _ _ less
    rwa [bytes, Nat.zero_add] at found
  have lens := congrArg List.length ends
  rw [List.length_append] at lens
  simp only [List.length_cons, List.length_nil] at lens
  have starts : base 0 ≠ KEY_DELIMITER := by
    intro zero
    apply wellFormed.starts
    rw [List.head?_eq_getElem?, byteAt 0 (by omega), zero]
  have first : base (dstEnd - 1) = KEY_DELIMITER := by
    have found := byteAt (dstEnd - 1) (by omega)
    have place : dstEnd - 1 - body.length = 0 := by omega
    rw [ends, List.getElem?_append_right (by omega), place] at found
    exact (Option.some.inj found).symm
  have second : base dstEnd = KEY_DELIMITER := by
    have found := byteAt dstEnd (by omega)
    have place : dstEnd - body.length = 1 := by omega
    rw [ends, List.getElem?_append_right (by omega), place] at found
    exact (Option.some.inj found).symm
  have same : store (store base dstEnd KEY_DELIMITER) (dstEnd - 1) KEY_DELIMITER = base := by
    unfold store
    rw [← second, Function.update_eq_self, second, ← first, Function.update_eq_self]
  have before : base (dstEnd - 2) ≠ KEY_DELIMITER := by
    intro zero
    cases List.eq_nil_or_concat body with
    | inl empty =>
      rw [empty, List.length_nil] at lens
      omega
    | inr parts =>
      obtain ⟨front, x, rfl⟩ := parts
      rw [List.concat_eq_append, List.append_assoc] at chain
      have pair := (List.isChain_append.mp chain).2.1
      have found := byteAt (dstEnd - 2) (by omega)
      rw [List.concat_eq_append, List.length_append, List.length_singleton] at lens
      have place : dstEnd - 2 = front.length := by omega
      rw [ends, List.concat_eq_append, List.append_assoc, place, List.getElem?_append_right (Nat.le_refl _),
        Nat.sub_self] at found
      have isZero : x = KEY_DELIMITER := by
        rw [← zero, place]
        exact Option.some.inj found
      cases (List.isChain_cons_cons.mp pair).1 with
      | inl other => exact other isZero
      | inr other => exact other rfl
  refine ⟨{ exp_key with base := base, end_ := dstEnd }, ?_, bytes, rfl⟩
  unfold expandedKey
  rw [if_neg starts]
  dsimp only
  rw [same, if_neg before]

/-- The key of the found record. -/
theorem gvcst_expand_curr_key_found (target : WellFormedTarget gv_currkey) (room : MAX_KEY_SZ < gv_altkey.top)
    (found : SearchedLeaf buffaddr gv_currkey.bytes bh below (node :: others)) :
    ∃ altkey, gvcst_expand_curr_key buffaddr bh gv_currkey gv_altkey = .ok altkey ∧ altkey.bytes = node.key ∧
      altkey.top = gv_altkey.top := by
  obtain ⟨rest, head, _⟩ := found.head
  have curr : bh.curr_rec.match_ = commonPrefix gv_currkey.bytes node.key := found.curr
  have full := match_whole_iff target found
  obtain ⟨wellFormed, short⟩ := found.back.grammar node List.mem_cons_self
  have width := gv_currkey.length_bytes
  have notLess := found.notLess node List.mem_cons_self
  have count := head.cmpc
  have grows := found.back.lt_all node List.mem_cons_self
  have below' := commonPrefix_le node.key (lastNode [] below)
  rw [commonPrefix_comm grows] at below'
  unfold gvcst_expand_curr_key
  dsimp only
  by_cases here : node.key = gv_currkey.bytes
  · have whole := full.mpr here
    have short' := target.short
    rw [here, width] at below'
    have stored := ByteMemory.read_store gv_altkey.base 0 (gv_currkey.base.read 0 bh.curr_rec.match_)
    rw [ByteMemory.length_read, ← whole] at stored
    rw [count, here, ← whole, if_neg (by omega), if_pos rfl, if_neg (by omega)]
    exact expandedKey_eq target.wellFormed width stored
  · have greater : gv_currkey.bytes < node.key := by
      by_contra notGreater
      exact here (List.le_antisymm (List.not_lt.mp notGreater) (List.not_lt.mp notLess))
    obtain ⟨shared, _, _⟩ := found_shared found greater
    have three := shared_add_three wellFormed (.inr target.wellFormed) greater
    have agree := take_commonPrefix gv_currkey.bytes node.key
    rw [count]
    generalize commonPrefix (lastNode [] below) node.key = c at *
    have notFull : ¬ bh.curr_rec.match_ = gv_currkey.end_ + 1 := fun whole => here (full.mp whole.symm)
    rw [if_neg (by omega), if_neg notFull]
    generalize copiedIs : (if bh.curr_rec.match_ > c ∧ gv_currkey.base (bh.curr_rec.match_ - 1) = KEY_DELIMITER then
      bh.curr_rec.match_ - 1 else bh.curr_rec.match_) = copied
    have bounds : c ≤ copied ∧ copied ≤ commonPrefix gv_currkey.bytes node.key := by
      rw [← copiedIs, curr]
      split <;> omega
    have taken : gv_currkey.base.read 0 copied = node.key.take copied := by
      have both := congrArg (List.take copied) agree
      rw [List.take_take, List.take_take, Nat.min_eq_left bounds.2] at both
      rw [← both]
      exact ByteMemory.read_take (by omega)
    have keyBytes := HeadRecord.key_bytes head bounds.1 (by omega : copied ≤ node.key.length)
    obtain ⟨body, ends, chain⟩ := wellFormed.ends
    have lens := congrArg List.length ends
    rw [List.length_append] at lens
    simp only [List.length_cons, List.length_nil] at lens
    have tail : node.key.drop copied = body.drop copied ++ [KEY_DELIMITER, KEY_DELIMITER] := by
      rw [ends, List.drop_append_of_le_length (by omega)]
    have tailWidth : node.key.length - copied = (body.drop copied).length + 2 := by
      rw [List.length_drop]
      omega
    rw [tail, tailWidth] at keyBytes
    have chain' : (body.drop copied ++ [KEY_DELIMITER]).IsChain NotBothDelimiters := by
      have dropped := chain.drop copied
      rw [List.drop_append_of_le_length (by omega)] at dropped
      exact dropped
    have widths : (body.drop copied).length = body.length - copied := List.length_drop
    obtain ⟨base, result, same, before⟩ := @copyKey_eq buffaddr
      (gv_altkey.base.store 0 (gv_currkey.base.read 0 copied)) (body.drop copied) (gv_altkey.top - 1) gv_altkey.top
      copied _ keyBytes chain' (by omega) (by omega)
    have sum : copied + (body.drop copied).length + 1 = node.key.length - 1 := by omega
    rw [if_neg (by omega), result, sum]
    dsimp only
    refine expandedKey_eq wellFormed (by omega) ?_
    have parts : node.key.length - 1 + 1 = copied + ((body.drop copied).length + 2) := by omega
    have first : base.read 0 copied = node.key.take copied := by
      have stored := ByteMemory.read_store gv_altkey.base 0 (gv_currkey.base.read 0 copied)
      rw [ByteMemory.length_read, taken] at stored
      rw [← stored, ← taken]
      apply ByteMemory.read_congr
      intro i less
      rw [Nat.zero_add]
      exact before i less
    rw [parts, ByteMemory.read_add, Nat.zero_add, first, same, ← tail, List.take_append_drop]

/-- $QUERY returns the first node that is not below the key. -/
theorem gvcst_query2_next (tree : TreeHolds db root nodes) (target : WellFormedTarget gv_currkey)
    (room : MAX_KEY_SZ < gv_altkey.top) :
    firstFrom gv_currkey.bytes nodes = none ∧ gvcst_query2 db gv_altkey gv_currkey root = .ok (false, gv_altkey) ∨
      ∃ node altkey, firstFrom gv_currkey.bytes nodes = some node ∧
        gvcst_query2 db gv_altkey gv_currkey root = .ok (true, altkey) ∧ altkey.bytes = node.key ∧
        altkey.top = gv_altkey.top := by
  obtain ⟨hist, _, left, below, above, right, result, path, around⟩ :=
    gvcst_search_path tree target (Nat.le_of_lt room) false
  unfold gvcst_query2
  rw [result]
  dsimp only
  cases currentRecord_path path around target (Nat.le_of_lt room) with
  | inl none =>
    rw [none.2]
    exact .inl ⟨none.1, rfl⟩
  | inr some =>
    obtain ⟨bh, below', node, others, record, first, found⟩ := some
    obtain ⟨altkey, expanded, bytes, top⟩ := gvcst_expand_curr_key_found target room found
    rw [record]
    dsimp only
    rw [expanded]
    exact .inr ⟨node, altkey, first, rfl, bytes, top⟩

end Ydb.GlobalTree
