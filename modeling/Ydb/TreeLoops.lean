import Ydb.TreeOrder

/-!
# Loops over a tree

Each turn of a loop searches from the key that the last one has returned. With `gvcst_query2` the loop visits all
nodes from a key on; with `gvcst_order2` it visits every subscript of a level once, in collation order.
-/

namespace Ydb.GlobalTree

open Lib BlockUpdate

/-- The key behind the key and its descendants. -/
def GVKEY_INCREMENT_ORDER (KEY : KeyBuffer) : KeyBuffer :=
  { KEY with
    base := store (store KEY.base (KEY.end_ - 1) 1) (KEY.end_ + 1) KEY_DELIMITER
    end_ := KEY.end_ + 1 }

/-- The key behind the key. -/
def GVKEY_INCREMENT_QUERY (KEY : KeyBuffer) : KeyBuffer :=
  { KEY with
    base := store (store (store KEY.base KEY.end_ 1) (KEY.end_ + 1) KEY_DELIMITER) (KEY.end_ + 2) KEY_DELIMITER
    end_ := KEY.end_ + 2 }

/-- The keys that $QUERY returns, one after the other. Each search starts at the root and uses no clue. -/
def queryLoop (db : Database) (root : Nat) : Nat → KeyBuffer → KeyBuffer → Option (List (List UInt8))
  | 0, _, _ => none
  | turns + 1, gv_altkey, gv_currkey =>
    match gvcst_query2 db gv_altkey gv_currkey root with
    | .error _ => none
    | .ok (false, _) => some []
    | .ok (true, gv_altkey) =>
      (queryLoop db root turns gv_altkey (GVKEY_INCREMENT_QUERY gv_altkey)).map (gv_altkey.bytes :: ·)

/-- The keys that $ORDER returns, one after the other. Each search starts at the root and uses no clue. -/
def orderLoop (db : Database) (root : Nat) : Nat → KeyBuffer → KeyBuffer → Option (List (List UInt8))
  | 0, _, _ => none
  | turns + 1, gv_altkey, gv_currkey =>
    match gvcst_order2 db gv_altkey gv_currkey root with
    | .error _ => none
    | .ok (false, _) => some []
    | .ok (true, gv_altkey) =>
      (orderLoop db root turns gv_altkey (GVKEY_INCREMENT_ORDER { gv_altkey with prev := gv_currkey.prev })).map
        (gv_altkey.bytes :: ·)

variable {db : Database} {t : List UInt8} {root : Nat} {nodes : List Node} {node : Node}
variable {gv_altkey gv_currkey : KeyBuffer}

/-- The keys of a database leave room for the bytes of a search. -/
def LeavesRoom (nodes : List Node) : Prop := ∀ n ∈ nodes, n.key.length + 2 ≤ MAX_KEY_SZ

theorem increment_query_ends (target : WellFormedTarget gv_currkey) (hidden : gv_currkey.end_ + 3 ≤ MAX_KEY_SZ) :
    WellFormedTarget (GVKEY_INCREMENT_QUERY gv_currkey) ∧
      ∃ q, KillEnds false gv_currkey.bytes (GVKEY_INCREMENT_QUERY gv_currkey).bytes q :=
  @killAltKey_ends gv_currkey gv_currkey false target hidden

theorem increment_order_ends (target : WellFormedTarget gv_currkey) (hidden : gv_currkey.end_ + 3 ≤ MAX_KEY_SZ) :
    WellFormedTarget (GVKEY_INCREMENT_ORDER gv_currkey) ∧
      ∃ q, KillEnds true gv_currkey.bytes (GVKEY_INCREMENT_ORDER gv_currkey).bytes q :=
  @killAltKey_ends gv_currkey gv_currkey true target hidden

/-- The first node that is not below a key parts the nodes. -/
theorem firstFrom_split (sorted : nodes.Pairwise fun a b => a.key < b.key) (first : firstFrom t nodes = some node) :
    ∃ before after, nodes = before ++ node :: after ∧ (∀ n ∈ before, n.key < t) ∧ ¬ node.key < t ∧
      ∀ n ∈ after, node.key < n.key := by
  unfold firstFrom at first
  obtain ⟨here, before, after, rfl, less⟩ := List.find?_eq_some_iff_append.mp first
  refine ⟨before, after, rfl, ?_, of_decide_eq_true here, ?_⟩
  · intro n member
    simpa using less n member
  · exact (List.pairwise_cons.mp (List.pairwise_append.mp sorted).2.1).1

/-- The nodes from a key on, in front of which there is no other. -/
theorem filter_from {before after : List Node} (less : ∀ n ∈ before, n.key < t) (notLess : ¬ node.key < t)
    (greater : ∀ n ∈ after, node.key < n.key) :
    ((before ++ node :: after).filter fun n => ¬ n.key < t) = node :: after := by
  have front : (before.filter fun n => ¬ n.key < t) = [] := by
    apply List.filter_eq_nil_iff.mpr
    intro n earlier
    simpa using less n earlier
  have back : (after.filter fun n => ¬ n.key < t) = after := by
    apply List.filter_eq_self.mpr
    intro n later
    have above := List.lt_of_le_of_lt (List.not_lt.mp notLess) (greater n later)
    exact decide_eq_true fun below => List.lt_irrefl _ (List.lt_trans above below)
  rw [List.filter_append, front, List.nil_append, List.filter_cons_of_pos (by simpa using notLess), back]

/-- The nodes from a key on that is behind a node. -/
theorem filter_behind {before after : List Node} (less : ∀ n ∈ before, n.key < t) (passed : node.key < t) :
    ((before ++ node :: after).filter fun n => ¬ n.key < t) = after.filter fun n => ¬ n.key < t := by
  have front : (before.filter fun n => ¬ n.key < t) = [] := by
    apply List.filter_eq_nil_iff.mpr
    intro n earlier
    simpa using less n earlier
  rw [List.filter_append, front, List.nil_append, List.filter_cons_of_neg (by simpa using passed)]

theorem firstFrom_none (first : firstFrom t nodes = none) : ∀ n ∈ nodes, n.key < t := by
  intro n member
  have less := List.find?_eq_none.mp first n member
  simpa using less

/-! ## $QUERY -/

/-- A $QUERY loop, searching without a clue, visits the nodes that are not below the key, each once and in order. -/
theorem queryLoop_visits (tree : TreeHolds db root nodes) (target : WellFormedTarget gv_currkey)
    (room : MAX_KEY_SZ < gv_altkey.top) (roomy : LeavesRoom nodes) {turns : Nat}
    (enough : (nodes.filter fun n => ¬ n.key < gv_currkey.bytes).length < turns) :
    queryLoop db root turns gv_altkey gv_currkey =
      some ((nodes.filter fun n => ¬ n.key < gv_currkey.bytes).map Node.key) := by
  induction turns generalizing gv_altkey gv_currkey with
  | zero => exact absurd enough (Nat.not_lt_zero _)
  | succ turns ih =>
    rw [queryLoop]
    cases gvcst_query2_next tree target room with
    | inl none =>
      have empty : (nodes.filter fun n => ¬ n.key < gv_currkey.bytes) = [] := by
        apply List.filter_eq_nil_iff.mpr
        intro n member
        simpa using firstFrom_none none.1 n member
      rw [none.2, empty]
      rfl
    | inr some =>
      obtain ⟨node, altkey, first, result, bytes, top⟩ := some
      obtain ⟨before, after, rfl, less, notLess, greater⟩ := firstFrom_split tree.sorted first
      have member : node ∈ before ++ node :: after := List.mem_append_right _ List.mem_cons_self
      have wellFormed := tree.grammar node member
      have long := roomy node member
      have width := altkey.length_bytes
      rw [bytes] at width
      have target' : WellFormedTarget altkey := ⟨bytes ▸ wellFormed, by rw [bytes]; omega⟩
      obtain ⟨next, q, ends⟩ := increment_query_ends target' (by omega)
      rw [bytes] at ends
      -- behind the node there is no key below the next search
      have beyond : ∀ n ∈ after, ¬ n.key < (GVKEY_INCREMENT_QUERY altkey).bytes := by
        intro n later below
        have inside : n ∈ before ++ node :: after := List.mem_append_right _ (List.mem_cons_of_mem _ later)
        have above := greater n later
        have begins := (ends.mem_iff wellFormed (tree.grammar n inside)).mp
          ⟨fun less => List.lt_irrefl _ (List.lt_trans above less), below⟩
        have same : node.key = n.key := wellFormed.eq_of_prefix (tree.grammar n inside) begins
        rw [same] at above
        exact List.lt_irrefl _ above
      have passed : node.key < (GVKEY_INCREMENT_QUERY altkey).bytes :=
        ((ends.mem_iff wellFormed wellFormed).mpr (List.prefix_refl _)).2
      have earlier : ∀ n ∈ before, n.key < (GVKEY_INCREMENT_QUERY altkey).bytes := fun n front =>
        List.lt_trans (less n front) (List.lt_of_le_of_lt (List.not_lt.mp notLess) passed)
      have rest : ((before ++ node :: after).filter fun n => ¬ n.key < (GVKEY_INCREMENT_QUERY altkey).bytes) =
          after := by
        rw [filter_behind earlier passed]
        exact List.filter_eq_self.mpr fun n later => decide_eq_true (beyond n later)
      have here := filter_from less notLess greater
      rw [here, List.length_cons] at enough
      have visits := @ih altkey (GVKEY_INCREMENT_QUERY altkey) next (by omega)
        (by rw [rest]; omega)
      rw [result]
      dsimp only
      rw [visits, rest, here, bytes]
      rfl

/-- The loop from the first key finds all nodes. -/
theorem queryLoop_visits_all :
    queryLoop smallDatabase 1 4 (smallGlobals []).gv_altkey (smallGlobals [0x61, 0, 0]).gv_currkey =
      some (((smallNodes ++ otherNodes).filter fun n => ¬ n.key < [0x61, 0, 0]).map Node.key) := by
  have key : (smallGlobals [0x61, 0, 0]).gv_currkey.bytes = [0x61, 0, 0] := by decide
  have visits := @queryLoop_visits smallDatabase 1 _ (smallGlobals []).gv_altkey
    (smallGlobals [0x61, 0, 0]).gv_currkey smallDatabase_holds ⟨key ▸ smallNodes_grammar.1, by decide⟩ (by decide)
    (by unfold LeavesRoom; decide) 4 (by decide)
  rw [key] at visits
  exact visits


/-! ## $ORDER -/

section Names

variable {q u key : List UInt8} {p m : Nat}

/-- The name of a node up to a subscript does not depend on the byte of the subscript. -/
theorem nodeUpto_eq (upto : p ≤ m) (nonzero : ∀ b ∈ (key.drop p).take (m - p), b ≠ 0) :
    nodeUpto m key = nodeUpto p key := by
  have split : key.drop p = (key.drop p).take (m - p) ++ key.drop m := by
    have parts := List.take_append_drop (m - p) (key.drop p)
    rw [List.drop_drop, Nat.add_sub_cancel' upto] at parts
    exact parts.symm
  have front : key.take m = key.take p ++ (key.drop p).take (m - p) := by
    rw [← List.take_add, Nat.add_sub_cancel' upto]
  have while' : (key.drop p).takeWhile (fun b => b ≠ 0) =
      (key.drop p).take (m - p) ++ (key.drop m).takeWhile fun b => b ≠ 0 := by
    conv_lhs => rw [split]
    rw [List.takeWhile_append_of_pos]
    intro b member
    simpa using nonzero b member
  unfold nodeUpto
  rw [while', front]
  simp only [List.append_assoc]

theorem nodeUpto_prefix (nonzero : ∀ b ∈ u, b ≠ 0) (begins : q ++ u ++ [0] <+: key) :
    nodeUpto q.length key = q ++ u ++ [0, 0] := by
  obtain ⟨rest, rfl⟩ := begins
  have taken : (q ++ u ++ [0] ++ rest).take q.length = q := by
    rw [List.append_assoc, List.append_assoc, List.take_left]
  have dropped : (q ++ u ++ [0] ++ rest).drop q.length = u ++ 0 :: rest := by
    rw [List.append_assoc, List.append_assoc, List.drop_left]
    rfl
  have cut : (u ++ 0 :: rest).takeWhile (fun b => b ≠ 0) = u := by
    rw [List.takeWhile_append_of_pos (by
      intro b member
      simpa using nonzero b member), List.takeWhile_cons_of_neg (by simp), List.append_nil]
  unfold nodeUpto
  rw [taken, dropped, cut]

/-- The place in the last subscript in which a key parts from the incremented one. -/
theorem parts_in_subscript (nonzero : ∀ b ∈ u, b ≠ 0) (begins : q <+: key)
    (absent : ¬ q ++ u ++ [1, 0] <+: key) :
    let m := commonPrefix (q ++ u ++ [1, KEY_DELIMITER, KEY_DELIMITER]) key
    q.length ≤ m ∧ m ≤ q.length + u.length + 1 ∧ ∀ b ∈ (key.drop q.length).take (m - q.length), b ≠ 0 := by
  dsimp only
  generalize ts : q ++ u ++ [1, KEY_DELIMITER, KEY_DELIMITER] = t
  have width : t.length = q.length + u.length + 3 := by
    rw [← ts, List.length_append, List.length_append]
    rfl
  have first : t.take q.length = q := by
    rw [← ts, List.append_assoc, List.take_left]
  have low : q.length ≤ commonPrefix t key := by
    apply (le_commonPrefix_iff (by omega)).mpr
    rw [first]
    exact begins
  have high : commonPrefix t key ≤ q.length + u.length + 1 := by
    by_contra more
    apply absent
    have whole : t.take (q.length + u.length + 2) = q ++ u ++ [1, 0] := by
      have split : t = (q ++ u ++ [1, 0]) ++ [KEY_DELIMITER] := by
        rw [← ts, List.append_assoc (q ++ u)]
        rfl
      have count : (q ++ u ++ [1, 0]).length = q.length + u.length + 2 := by
        rw [List.length_append, List.length_append]
        rfl
      rw [split, ← count, List.take_left]
    rw [← whole]
    exact (le_commonPrefix_iff (by omega)).mp (by omega)
  refine ⟨low, high, ?_⟩
  intro b member
  have agree := take_commonPrefix t key
  have same : (key.drop q.length).take (commonPrefix t key - q.length) =
      (t.drop q.length).take (commonPrefix t key - q.length) := by
    rw [← List.drop_take, ← List.drop_take, agree]
  have rest : t.drop q.length = u ++ [1] ++ [KEY_DELIMITER, KEY_DELIMITER] := by
    rw [← ts, List.append_assoc, List.drop_left, List.append_assoc]
    rfl
  have inside : commonPrefix t key - q.length ≤ (u ++ [1]).length := by
    rw [List.length_append, List.length_singleton]
    omega
  rw [same, rest, List.take_append_of_le_length inside] at member
  cases List.mem_append.mp ((List.take_prefix _ _).subset member) with
  | inl early => exact nonzero b early
  | inr one =>
    rw [List.mem_singleton.mp one]
    decide

/-- A key has a subscript behind a beginning. -/
structure HasSubscript (q s key : List UInt8) : Prop where
  nonzero : ∀ b ∈ s, b ≠ 0
  begins : q ++ s ++ [0] <+: key

theorem HasSubscript.upto {s : List UInt8} (has : HasSubscript q s key) :
    nodeUpto q.length key = q ++ s ++ [0, 0] :=
  nodeUpto_prefix has.nonzero has.begins

/-- A key has one subscript at a level. -/
theorem HasSubscript.unique {s s' : List UInt8} (has : HasSubscript q s key) (other : HasSubscript q s' key) :
    s = s' := by
  have same := has.upto.symm.trans other.upto
  rw [List.append_assoc, List.append_assoc] at same
  exact List.append_cancel_right (List.append_cancel_left same)

theorem lt_of_append_left {a b : List UInt8} (less : q ++ a < q ++ b) : a < b := by
  induction q with
  | nil => exact less
  | cons c q ih =>
    cases List.cons_lt_cons_iff.mp less with
    | inl impossible => exact absurd impossible (UInt8.lt_irrefl c)
    | inr same => exact ih same.2

/-- Without a zero, the order is that of what stands in front of the zeros. -/
theorem lt_of_append_lt {s s' behind rest : List UInt8} (nonzero : ∀ b ∈ s, b ≠ 0)
    (less : s ++ 1 :: behind < s' ++ 0 :: rest) : s < s' := by
  induction s generalizing s' with
  | nil =>
    cases s' with
    | nil =>
      cases List.cons_lt_cons_iff.mp less with
      | inl impossible => exact absurd impossible (by decide)
      | inr impossible => exact absurd impossible.1 (by decide)
    | cons c s' => exact List.nil_lt_cons _ _
  | cons a s ih =>
    cases s' with
    | nil =>
      cases List.cons_lt_cons_iff.mp less with
      | inl impossible => exact absurd impossible UInt8.not_lt_zero
      | inr impossible => exact absurd impossible.1 (nonzero a List.mem_cons_self)
    | cons c s' =>
      cases List.cons_lt_cons_iff.mp less with
      | inl smaller => exact List.cons_lt_cons_iff.mpr (.inl smaller)
      | inr same =>
        have rest := ih (fun b member => nonzero b (List.mem_cons_of_mem _ member)) same.2
        exact List.cons_lt_cons_iff.mpr (.inr ⟨same.1, rest⟩)

/-- A key behind an incremented one has a subscript that is not empty. -/
theorem exists_subscript (wellFormed : WellFormedKey key) (begins : q <+: key) (nonzeroU : ∀ b ∈ u, b ≠ 0)
    (greater : q ++ u ++ [1, KEY_DELIMITER, KEY_DELIMITER] < key) : ∃ s, HasSubscript q s key ∧ s ≠ [] := by
  obtain ⟨rest, rfl⟩ := begins
  have zero : (0 : UInt8) ∈ rest := by
    obtain ⟨body, whole, _⟩ := wellFormed.ends
    cases List.eq_nil_or_concat rest with
    | inl empty =>
      rw [empty, List.append_nil, List.append_assoc] at greater
      exact absurd greater not_append_lt
    | inr parts =>
      obtain ⟨front, x, rfl⟩ := parts
      rw [List.concat_eq_append] at whole ⊢
      have regrouped : (q ++ front) ++ [x] = (body ++ [KEY_DELIMITER]) ++ [KEY_DELIMITER] := by
        rw [List.append_assoc, whole, List.append_assoc]
        rfl
      have last : x = 0 := List.head_eq_of_cons_eq (List.append_inj' regrouped rfl).2
      rw [last]
      exact List.mem_append_right _ List.mem_cons_self
  have nonzero : ∀ b ∈ rest.takeWhile fun b => b ≠ 0, b ≠ 0 := by
    intro b member
    simpa using List.mem_takeWhile_imp member
  have split := @List.takeWhile_append_dropWhile _ (fun b : UInt8 => b ≠ 0) rest
  cases behind : rest.dropWhile (fun b => b ≠ 0) with
  | nil =>
    rw [behind, List.append_nil] at split
    rw [← split] at zero
    exact absurd rfl (nonzero 0 zero)
  | cons x more =>
    have stops := List.head?_dropWhile_not (fun b : UInt8 => decide (b ≠ 0)) rest
    rw [behind] at stops
    have isZero : x = 0 := by simpa using stops
    rw [behind, isZero] at split
    refine ⟨rest.takeWhile fun b => b ≠ 0, ⟨nonzero, more, ?_⟩, ?_⟩
    · conv_rhs => rw [← split]
      simp only [List.append_assoc, List.singleton_append]
    · intro empty
      rw [empty, List.nil_append] at split
      rw [← split, List.append_assoc] at greater
      exact List.not_lt_nil u (lt_of_append_lt nonzeroU (lt_of_append_left greater))

/-- A key up to a subscript is a key. -/
theorem HasSubscript.wellFormed {s : List UInt8} (has : HasSubscript q s key) (some : s ≠ [])
    (wellFormed : WellFormedKey key) :
    WellFormedKey (q ++ s ++ [0, 0]) ∧ (q ++ s ++ [0, 0]).length ≤ key.length := by
  obtain ⟨body, whole, chain⟩ := wellFormed.ends
  have begins := has.begins
  have regrouped : key = (body ++ [KEY_DELIMITER]) ++ [KEY_DELIMITER] := by
    rw [whole, List.append_assoc]
    rfl
  -- the subscript does not end in a delimiter, so one delimiter of the key is left
  have shorter : q ++ s ++ [0] <+: body ++ [KEY_DELIMITER] := by
    rw [regrouped] at begins
    cases List.prefix_concat_iff.mp begins with
    | inr inside => exact inside
    | inl equal =>
      have same := (List.append_inj' equal rfl).1
      obtain ⟨front, x, rfl⟩ := (List.eq_nil_or_concat s).resolve_left some
      rw [List.concat_eq_append, ← List.append_assoc] at same
      have last : x = 0 := List.head_eq_of_cons_eq (List.append_inj' same rfl).2
      exact absurd last (has.nonzero x (by simp))
  refine ⟨⟨?_, q ++ s, rfl, chain.infix shorter.isInfix⟩, ?_⟩
  · have starts := wellFormed.starts
    obtain ⟨rest, rfl⟩ := begins
    cases front : q ++ s with
    | nil => exact absurd (List.append_eq_nil_iff.mp front).2 some
    | cons c more =>
      rw [front] at starts
      exact starts
  · have count : (q ++ s).length + 1 ≤ (body ++ [KEY_DELIMITER]).length :=
      (@List.length_append _ (q ++ s) [0]).symm ▸ shorter.length_le
    have width : (q ++ s ++ [0, 0]).length = (q ++ s).length + 2 := List.length_append
    have whole' : key.length = (body ++ [KEY_DELIMITER]).length + 1 := by
      rw [regrouped]
      exact List.length_append
    omega

end Names

variable {q u : List UInt8}

/-- No node has a subscript that is one of the others, or the one of the search, with a one behind it. -/
def NoneBehindOne (q u : List UInt8) (nodes : List Node) : Prop :=
  ∀ s, (s = u ∨ s ≠ [] ∧ ∃ n ∈ nodes, HasSubscript q s n.key) → ∀ n ∈ nodes, ¬ q ++ s ++ [1, 0] <+: n.key

/-- No node behind a search is below the first one. -/
theorem firstFrom_le (sorted : nodes.Pairwise fun a b => a.key < b.key) (first : firstFrom t nodes = some node)
    {n : Node} (member : n ∈ nodes) (above : t < n.key) : ¬ n.key < node.key := by
  intro below
  obtain ⟨before, after, rfl, less, notLess, greater⟩ := firstFrom_split sorted first
  cases List.mem_append.mp member with
  | inl earlier => exact List.lt_irrefl _ (List.lt_trans above (less n earlier))
  | inr here =>
    cases List.mem_cons.mp here with
    | inl same => exact List.lt_irrefl _ (same ▸ below)
    | inr later => exact List.lt_irrefl _ (List.lt_trans below (greater n later))

/-- When the first node behind the search begins otherwise, so do all behind it. -/
theorem firstFrom_other {key : List UInt8} (sorted : nodes.Pairwise fun a b => a.key < b.key)
    (first : firstFrom t nodes = some node) (search : t = q ++ key) (other : ¬ q <+: node.key) :
    ∀ n ∈ nodes, t < n.key → ¬ q <+: n.key := by
  intro n member above begins
  obtain ⟨_, _, _, _, notLess, _⟩ := firstFrom_split sorted first
  have least : ¬ node.key < q ++ key := search ▸ notLess
  have high := firstFrom_le sorted first member above
  by_cases same : n.key = node.key
  · exact other (same ▸ begins)
  · obtain ⟨rest, whole⟩ := begins
    have below : node.key < q ++ rest := by
      by_contra notBelow
      rw [whole] at notBelow
      exact same (List.le_antisymm (List.not_lt.mp notBelow) (List.not_lt.mp high))
    obtain ⟨y, parts, _⟩ := between_prefix least below
    exact other ⟨y, parts.symm⟩

/-- What a turn of a $ORDER loop finds: no node of the level, or the first one and its subscript. -/
theorem gvcst_order2_level (tree : TreeHolds db root nodes) (target : WellFormedTarget gv_currkey)
    (room : MAX_KEY_SZ ≤ gv_altkey.top) (prev : gv_currkey.prev = q.length)
    (search : gv_currkey.bytes = q ++ u ++ [1, KEY_DELIMITER, KEY_DELIMITER]) (nonzero : ∀ b ∈ u, b ≠ 0)
    (absent : ∀ n ∈ nodes, ¬ q ++ u ++ [1, 0] <+: n.key) :
    (∃ altkey, gvcst_order2 db gv_altkey gv_currkey root = .ok (false, altkey) ∧
        ∀ n ∈ nodes, gv_currkey.bytes < n.key → ¬ q <+: n.key) ∨
      ∃ node altkey s, firstFrom gv_currkey.bytes nodes = some node ∧ gv_currkey.bytes < node.key ∧
        gvcst_order2 db gv_altkey gv_currkey root = .ok (true, altkey) ∧ HasSubscript q s node.key ∧ s ≠ [] ∧
        altkey.bytes = q ++ s ++ [0, 0] ∧ altkey.top = gv_altkey.top := by
  have other : ∀ n ∈ nodes, n.key ≠ gv_currkey.bytes := by
    intro n member same
    apply absent n member
    rw [same, search]
    exact ⟨[0], by rw [List.append_assoc (q ++ u)]; rfl⟩
  cases gvcst_order2_next tree target room other with
  | inl none =>
    refine .inl ⟨gv_altkey, none.2, ?_⟩
    intro n member above
    exact absurd (List.lt_trans above (firstFrom_none none.1 n member)) (List.lt_irrefl _)
  | inr some =>
    obtain ⟨node, altkey, first, result, bytes, top⟩ := some
    have member := List.mem_of_find?_eq_some first
    obtain ⟨_, _, _, _, notLess, _⟩ := firstFrom_split tree.sorted first
    have greater : gv_currkey.bytes < node.key := by
      by_contra notGreater
      exact other node member (List.le_antisymm (List.not_lt.mp notGreater) (List.not_lt.mp notLess))
    have inside : q.length ≤ gv_currkey.bytes.length := by
      rw [search, List.length_append, List.length_append]
      omega
    have begins : q.length ≤ commonPrefix gv_currkey.bytes node.key ↔ q <+: node.key := by
      rw [le_commonPrefix_iff inside, search, List.append_assoc, List.take_left]
    rw [prev] at result
    by_cases level : q <+: node.key
    · obtain ⟨s, has, some⟩ := exists_subscript (tree.grammar node member) level nonzero (search ▸ greater)
      have parts := parts_in_subscript nonzero level (absent node member)
      rw [← search] at parts
      refine .inr ⟨node, altkey, s, first, greater, ?_, has, some, ?_, top⟩
      · rw [result, decide_eq_true (begins.mpr level)]
      · rw [bytes, nodeUpto_eq parts.1 parts.2.2, has.upto]
    · refine .inl ⟨altkey, ?_, ?_⟩
      · rw [result, decide_eq_false fun enough => level (begins.mp enough)]
      · rw [List.append_assoc] at search
        exact firstFrom_other tree.sorted first search level

/-- The search behind a key and its descendants. -/
theorem increment_order_bytes {s : List UInt8} (target : WellFormedTarget gv_currkey)
    (hidden : gv_currkey.end_ + 3 ≤ MAX_KEY_SZ) (bytes : gv_currkey.bytes = q ++ s ++ [0, 0]) :
    WellFormedTarget (GVKEY_INCREMENT_ORDER gv_currkey) ∧
      (GVKEY_INCREMENT_ORDER gv_currkey).bytes = q ++ s ++ [1, KEY_DELIMITER, KEY_DELIMITER] ∧
      ∀ key, WellFormedKey key →
        (¬ key < gv_currkey.bytes ∧ key < (GVKEY_INCREMENT_ORDER gv_currkey).bytes ↔ q ++ s ++ [0] <+: key) := by
  obtain ⟨next, q', ends⟩ := increment_order_ends target hidden
  have begins := ends.begins
  have dropped : killPrefix true gv_currkey.bytes = q ++ s ++ [0] := by
    unfold killPrefix
    rw [if_pos rfl, bytes, List.dropLast_append_of_ne_nil (by decide)]
    rfl
  have same : q' = q ++ s := (List.append_inj' (begins.symm.trans dropped) rfl).1
  refine ⟨next, same ▸ ends.behind, ?_⟩
  intro key wellFormed
  rw [← dropped]
  exact ends.mem_iff target.wellFormed wellFormed

/-- A $ORDER loop visits the subscripts of the nodes behind the search, each once and in order. -/
theorem orderLoop_above (tree : TreeHolds db root nodes) (target : WellFormedTarget gv_currkey)
    (room : MAX_KEY_SZ ≤ gv_altkey.top) (roomy : LeavesRoom nodes) (prev : gv_currkey.prev = q.length)
    (search : gv_currkey.bytes = q ++ u ++ [1, KEY_DELIMITER, KEY_DELIMITER]) (nonzero : ∀ b ∈ u, b ≠ 0)
    (apart : NoneBehindOne q u nodes) {turns : Nat}
    (enough : (nodes.filter fun n => ¬ n.key < gv_currkey.bytes).length < turns) :
    ∃ subscripts : List (List UInt8), orderLoop db root turns gv_altkey gv_currkey =
        some (subscripts.map fun s => q ++ s ++ [0, 0]) ∧ subscripts.Pairwise (· < ·) ∧
      ∀ s, s ∈ subscripts ↔ ∃ n ∈ nodes, HasSubscript q s n.key ∧ gv_currkey.bytes < n.key := by
  induction turns generalizing gv_altkey gv_currkey u with
  | zero => exact absurd enough (Nat.not_lt_zero _)
  | succ turns ih =>
    rw [orderLoop]
    cases gvcst_order2_level tree target room prev search nonzero (apart u (.inl rfl)) with
    | inl none =>
      obtain ⟨altkey, result, beyond⟩ := none
      refine ⟨[], by rw [result]; rfl, .nil, ?_⟩
      intro s
      constructor
      · exact fun impossible => absurd impossible List.not_mem_nil
      · intro ⟨n, member, has, above⟩
        have begins : q <+: n.key := ((List.prefix_append q s).trans (List.prefix_append _ _)).trans has.begins
        exact absurd begins (beyond n member above)
    | inr some =>
      obtain ⟨node, altkey, s, first, above, result, has, some, bytes, top⟩ := some
      obtain ⟨before, after, split, less, notLess, greater⟩ := firstFrom_split tree.sorted first
      have member : node ∈ nodes := List.mem_of_find?_eq_some first
      obtain ⟨grammar, count⟩ := has.wellFormed some (tree.grammar node member)
      have short := roomy node member
      have width := altkey.length_bytes
      rw [← bytes] at grammar count
      have target' : WellFormedTarget { altkey with prev := gv_currkey.prev } := ⟨grammar, by
        change altkey.bytes.length ≤ MAX_KEY_SZ
        omega⟩
      have hidden : altkey.end_ + 3 ≤ MAX_KEY_SZ := by omega
      obtain ⟨next, search', range⟩ := increment_order_bytes target' hidden bytes
      have apart' : NoneBehindOne q s nodes := by
        intro s' one
        cases one with
        | inl same => exact apart s' (.inr ⟨same ▸ some, node, member, same ▸ has⟩)
        | inr one => exact apart s' (.inr one)
      generalize nextIs : GVKEY_INCREMENT_ORDER { altkey with prev := gv_currkey.prev } = currkey at *
      have prev' : currkey.prev = q.length := by
        rw [← nextIs]
        exact prev
      obtain ⟨atLeast, passed⟩ := (range node.key (tree.grammar node member)).mpr has.begins
      -- the nodes of the subscript are passed at once
      have fewer : (nodes.filter fun n => ¬ n.key < currkey.bytes).length < turns := by
        have earlier : ∀ n ∈ before, n.key < currkey.bytes := fun n front =>
          List.lt_trans (less n front) (List.lt_of_le_of_lt (List.not_lt.mp notLess) passed)
        have count := List.length_filter_le (fun n : Node => decide ¬ n.key < currkey.bytes) after
        rw [split, filter_from less notLess greater, List.length_cons] at enough
        rw [split, filter_behind earlier passed]
        omega
      obtain ⟨subscripts, rest, sorted, members⟩ := @ih altkey currkey s next (top ▸ room) prev'
        search' has.nonzero apart' fewer
      refine ⟨s :: subscripts, ?_, ?_, ?_⟩
      · rw [result]
        dsimp only
        rw [nextIs, rest, bytes]
        rfl
      · refine List.pairwise_cons.mpr ⟨?_, sorted⟩
        intro s' later
        obtain ⟨n, _, has', above⟩ := (members s').mp later
        obtain ⟨behind, same⟩ := has'.begins
        rw [search', ← same, List.append_assoc, List.append_assoc, List.append_assoc] at above
        exact lt_of_append_lt has.nonzero (lt_of_append_left above)
      · intro s'
        rw [List.mem_cons, members s']
        constructor
        · intro one
          cases one with
          | inl same => exact ⟨node, member, same ▸ has, above⟩
          | inr later =>
            obtain ⟨n, inside, has', above⟩ := later
            have low := List.lt_of_le_of_lt (List.not_lt.mp notLess) (List.lt_trans passed above)
            exact ⟨n, inside, has', low⟩
        · intro ⟨n, inside, has', higher⟩
          by_cases behind : currkey.bytes < n.key
          · exact .inr ⟨n, inside, has', behind⟩
          · left
            have notBelow := firstFrom_le tree.sorted first inside higher
            have notSame : n.key ≠ currkey.bytes := by
              intro same
              apply apart' s (.inl rfl) n inside
              rw [same, search']
              exact ⟨[0], by rw [List.append_assoc (q ++ s)]; rfl⟩
            have below : n.key < currkey.bytes := by
              by_contra notLess
              exact notSame (List.le_antisymm (List.not_lt.mp behind) (List.not_lt.mp notLess))
            have begins := (range n.key (tree.grammar n inside)).mp
              ⟨fun less => atLeast (List.lt_of_le_of_lt (List.not_lt.mp notBelow) less), below⟩
            exact has'.unique ⟨has.nonzero, begins⟩

/-- A subscript behind another one is behind the search from there. -/
theorem append_one_lt {s rest : List UInt8} (nonzero : ∀ b ∈ s, b ≠ 0) (less : u < s) (other : s ≠ u ++ [1]) :
    u ++ [1, 0, 0] < s ++ 0 :: rest := by
  have positive : ∀ b : UInt8, b ≠ 0 → 0 < b := fun b some => UInt8.lt_of_le_of_ne UInt8.zero_le (Ne.symm some)
  induction u generalizing s with
  | nil =>
    cases s with
    | nil => exact absurd less (List.lt_irrefl _)
    | cons c s =>
      have some := nonzero c List.mem_cons_self
      by_cases one : c = 1
      · rw [one]
        refine List.cons_lt_cons_iff.mpr (.inr ⟨rfl, ?_⟩)
        cases s with
        | nil => exact absurd (one ▸ rfl) other
        | cons d s =>
          have some' := nonzero d (List.mem_cons_of_mem _ List.mem_cons_self)
          exact List.cons_lt_cons_iff.mpr (.inl (positive d some'))
      · apply List.cons_lt_cons_iff.mpr
        left
        rw [UInt8.lt_iff_toNat_lt]
        have notZero : c.toNat ≠ 0 := fun zero => some (UInt8.toNat_inj.mp zero)
        have notOne : c.toNat ≠ 1 := fun same => one (UInt8.toNat_inj.mp same)
        change 1 < c.toNat
        omega
  | cons a u ih =>
    cases s with
    | nil => exact absurd less (List.not_lt_nil _)
    | cons c s =>
      cases List.cons_lt_cons_iff.mp less with
      | inl smaller => exact List.cons_lt_cons_iff.mpr (.inl smaller)
      | inr same =>
        obtain ⟨rfl, smaller⟩ := same
        have rest := ih (fun b member => nonzero b (List.mem_cons_of_mem _ member)) smaller
          fun equal => other (congrArg _ equal)
        exact List.cons_lt_cons_iff.mpr (.inr ⟨rfl, rest⟩)

/-- A $ORDER loop visits the subscripts behind the one of the search, each once and in order. -/
theorem orderLoop_visits (tree : TreeHolds db root nodes) (target : WellFormedTarget gv_currkey)
    (room : MAX_KEY_SZ ≤ gv_altkey.top) (roomy : LeavesRoom nodes) (prev : gv_currkey.prev = q.length)
    (search : gv_currkey.bytes = q ++ u ++ [1, KEY_DELIMITER, KEY_DELIMITER]) (nonzero : ∀ b ∈ u, b ≠ 0)
    (apart : NoneBehindOne q u nodes) {turns : Nat}
    (enough : (nodes.filter fun n => ¬ n.key < gv_currkey.bytes).length < turns) :
    ∃ subscripts : List (List UInt8), orderLoop db root turns gv_altkey gv_currkey =
        some (subscripts.map fun s => q ++ s ++ [0, 0]) ∧ subscripts.Pairwise (· < ·) ∧
      ∀ s, s ∈ subscripts ↔ u < s ∧ ∃ n ∈ nodes, HasSubscript q s n.key := by
  obtain ⟨subscripts, result, sorted, members⟩ := orderLoop_above tree target room roomy prev search nonzero apart
    enough
  refine ⟨subscripts, result, sorted, ?_⟩
  intro s
  rw [members s]
  constructor
  · intro ⟨n, member, has, above⟩
    obtain ⟨behind, same⟩ := has.begins
    rw [search, ← same, List.append_assoc, List.append_assoc, List.append_assoc] at above
    exact ⟨lt_of_append_lt nonzero (lt_of_append_left above), n, member, has⟩
  · intro ⟨less, n, member, has⟩
    refine ⟨n, member, has, ?_⟩
    obtain ⟨behind, same⟩ := has.begins
    have other : s ≠ u ++ [1] := by
      intro equal
      apply apart u (.inl rfl) n member
      rw [← same, equal]
      refine ⟨behind, ?_⟩
      simp only [List.append_assoc, List.cons_append, List.nil_append]
    rw [search, ← same, List.append_assoc, List.append_assoc, List.append_assoc]
    exact append_lt_append (append_one_lt has.nonzero less other)

end Ydb.GlobalTree
