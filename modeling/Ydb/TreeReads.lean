import Ydb.TreeSiblings

/-!
# Reading a tree

A read finds in the leaf, or at the beginning of its right sibling, the first node that is not below the key.
What it returns depends on the nodes of the tree alone.
-/

namespace Ydb.GlobalTree

open Lib BlockUpdate

section Common

variable {α : Type} [DecidableEq α] {a b : List α} {n : Nat}

theorem take_commonPrefix (a b : List α) : a.take (commonPrefix a b) = b.take (commonPrefix a b) := by
  induction a generalizing b with
  | nil => rfl
  | cons x a ih =>
    cases b with
    | nil => rfl
    | cons y b =>
      by_cases same : x = y
      · rw [commonPrefix, if_pos same, List.take_succ_cons, List.take_succ_cons, same, ih]
      · rw [commonPrefix, if_neg same]
        rfl

theorem le_commonPrefix_iff (inside : n ≤ a.length) : n ≤ commonPrefix a b ↔ a.take n <+: b := by
  constructor
  · intro less
    have same := congrArg (List.take n) (take_commonPrefix a b)
    rw [List.take_take, List.take_take, Nat.min_eq_left less] at same
    rw [same]
    exact List.take_prefix n b
  · intro begins
    induction n generalizing a b with
    | zero => exact Nat.zero_le _
    | succ n ih =>
      cases a with
      | nil => cases inside
      | cons x a =>
        rw [List.take_succ_cons] at begins
        cases b with
        | nil => exact absurd (List.prefix_nil.mp begins) (List.cons_ne_nil _ _)
        | cons y b =>
          obtain ⟨same, rest⟩ := List.cons_prefix_cons.mp begins
          rw [commonPrefix, if_pos same]
          exact Nat.succ_le_succ (ih (Nat.le_of_succ_le_succ inside) rest)

end Common

variable {db : Database} {t : List UInt8} {blk nLevl root : Nat}
variable {nodes left below above right others : List Node} {node : Node} {gv_altkey gv_currkey : KeyBuffer}
variable {hist : List HistBlock} {buffaddr : ByteMemory} {bh : SrchBlkStatus}

/-! ## The leaf of a path -/

/-- A path ends in the leaf around the key. -/
theorem Path.leaf_found (path : Path db t nLevl blk hist left below above right) :
    Leaf db.blk_size (db.t_qread (leafOf hist).blk_num) (below ++ above) ∧
      SearchedLeaf (db.t_qread (leafOf hist).blk_num) t (leafOf hist).status below above := by
  induction path with
  | leaf leaf found => exact ⟨leaf, found⟩
  | @index _ _ _ _ _ hist _ _ _ _ _ _ _ path _ _ ih =>
    have same : ∀ entry, leafOf (hist ++ [entry]) = leafOf hist := by
      intro entry
      cases hist with
      | nil => exact absurd rfl path.ne_nil
      | cons first hist => rfl
    rw [same]
    exact ih

/-- The search stops at the top of the leaf when no node is left. -/
theorem top_iff (found : SearchedLeaf buffaddr t bh below above) :
    bsiz buffaddr ≤ bh.curr_rec.offset ↔ above = [] := by
  have back := found.back.length_eq
  have last := found.last
  rw [ByteMemory.length_read] at back
  constructor
  · intro top
    by_contra some
    have more := @KilledRange.storedSize_pos (lastNode [] below) above some
    omega
  · intro none
    rw [none] at back
    have empty : storedSize (lastNode [] below) [] = 0 := rfl
    omega

/-- The node that a search finds, in the right sibling of the leaf. -/
theorem rightRecord_path (path : Path db gv_currkey.bytes nLevl blk hist left below above right)
    (around : Around nodes gv_currkey.bytes left below above right) (target : WellFormedTarget gv_currkey)
    (room : MAX_KEY_SZ ≤ gv_altkey.top) :
    right = [] ∧ rightRecord db gv_altkey gv_currkey hist = .error .endtree ∨
      ∃ bh node others rest, rightRecord db gv_altkey gv_currkey hist = .ok bh ∧ right = node :: rest ∧
        SearchedLeaf (db.t_qread bh.blk_num) gv_currkey.bytes bh.status [] (node :: others) := by
  unfold rightRecord
  cases gvcst_rtsib_path path target room with
  | inl ends =>
    rw [ends.2]
    exact .inl ⟨ends.1, rfl⟩
  | inr sibling =>
    obtain ⟨rt_history, leaf, rest, result, held, some, rfl⟩ := sibling
    obtain ⟨status, altkey, below', above', searched, same, found⟩ :=
      @searchBlk_leaf db _ leaf gv_altkey gv_currkey held target room false
    rw [result]
    dsimp only
    rw [searched]
    have none : below' = [] := by
      cases below' with
      | nil => rfl
      | cons n below' =>
        have member : n ∈ leaf ++ rest := by
          rw [same]
          exact List.mem_cons_self
        exact absurd (List.lt_trans (found.less n List.mem_cons_self) (around.greater n member)) (List.lt_irrefl _)
    subst none
    rw [List.nil_append] at same
    subst same
    cases leaf with
    | nil => exact absurd rfl some
    | cons node others => exact .inr ⟨_, node, others, others ++ rest, rfl, rfl, found⟩

/-- The first node that is not below the key. -/
def firstFrom (t : List UInt8) (nodes : List Node) : Option Node := nodes.find? fun n => ¬ n.key < t

/-- The first node from the key on. -/
theorem Around.firstFrom (around : Around nodes t left below above right) :
    firstFrom t nodes = (above ++ right).head? := by
  have front : ∀ n ∈ left ++ below, ¬ (decide (¬ n.key < t)) = true := by
    intro n member
    simpa using around.less n member
  have back : ∀ n ∈ (above ++ right).head?, (decide (¬ n.key < t)) = true := by
    intro n first
    cases List.mem_append.mp (List.mem_of_head? first) with
    | inl here => simpa using around.notLess n here
    | inr later => simpa using List.le_of_lt (around.greater n later)
  have whole : nodes = (left ++ below) ++ (above ++ right) := by
    rw [around.nodes]
    simp only [List.append_assoc]
  unfold GlobalTree.firstFrom
  rw [whole, List.find?_append, List.find?_eq_none.mpr front, Option.none_or]
  cases rest : above ++ right with
  | nil => rfl
  | cons n others =>
    rw [rest] at back
    exact List.find?_cons_of_pos (back n rfl)

/-- The node that a search finds, in the leaf or in its right sibling. -/
theorem currentRecord_path (path : Path db gv_currkey.bytes nLevl blk hist left below above right)
    (around : Around nodes gv_currkey.bytes left below above right) (target : WellFormedTarget gv_currkey)
    (room : MAX_KEY_SZ ≤ gv_altkey.top) :
    firstFrom gv_currkey.bytes nodes = none ∧ currentRecord db gv_altkey gv_currkey hist = .ok none ∨
      ∃ bh below node others, currentRecord db gv_altkey gv_currkey hist = .ok (some bh) ∧
        firstFrom gv_currkey.bytes nodes = some node ∧
        SearchedLeaf (db.t_qread bh.blk_num) gv_currkey.bytes bh.status below (node :: others) := by
  obtain ⟨leaf, found⟩ := path.leaf_found
  have top := top_iff found
  rw [around.firstFrom]
  unfold currentRecord
  dsimp only
  cases above with
  | nil =>
    rw [if_pos (top.mpr rfl), List.nil_append]
    cases rightRecord_path path around target room with
    | inl ends =>
      rw [ends.2, ends.1]
      exact .inl ⟨rfl, rfl⟩
    | inr sibling =>
      obtain ⟨bh, node, others, rest, result, rfl, held⟩ := sibling
      rw [result]
      exact .inr ⟨bh, [], node, others, rfl, rfl, held⟩
  | cons node above =>
    rw [if_neg (fun ends => List.cons_ne_nil _ _ (top.mp ends))]
    exact .inr ⟨_, below, node, above, rfl, rfl, found⟩

/-! ## $GET -/

/-- The value at a key. -/
def lookup (t : List UInt8) (nodes : List Node) : Option (List UInt8) :=
  (nodes.find? fun n => n.key = t).map Node.value

theorem Around.find_above (around : Around nodes t left below above right) :
    (nodes.find? fun n => n.key = t) = above.find? fun n => n.key = t := by
  have front : ∀ n ∈ left ++ below, ¬ (decide (n.key = t)) = true := by
    intro n member
    have less := around.less n member
    simpa using fun same : n.key = t => List.lt_irrefl _ (same ▸ less)
  have back : ∀ n ∈ right, ¬ (decide (n.key = t)) = true := by
    intro n member
    have greater := around.greater n member
    simpa using fun same : n.key = t => List.lt_irrefl _ (same ▸ greater)
  have whole : nodes = (left ++ below) ++ (above ++ right) := by
    rw [around.nodes]
    simp only [List.append_assoc]
  rw [whole, List.find?_append, List.find?_eq_none.mpr front, List.find?_append, List.find?_eq_none.mpr back,
    Option.none_or, Option.or_none]

/-- $GET, searching from the root without a clue, returns the value of the node, if there is one. -/
theorem gvcst_get2_lookup (tree : TreeHolds db root nodes) (target : WellFormedTarget gv_currkey)
    (room : MAX_KEY_SZ ≤ gv_altkey.top) :
    gvcst_get2 db gv_altkey gv_currkey root = .ok (lookup gv_currkey.bytes nodes) := by
  obtain ⟨hist, altkey, left, below, above, right, result, path, around⟩ := gvcst_search_path tree target room false
  obtain ⟨leaf, found⟩ := path.leaf_found
  have width := gv_currkey.length_bytes
  unfold gvcst_get2 lookup
  rw [result, around.find_above]
  dsimp only
  cases above with
  | nil =>
    have zero : (leafOf hist).status.curr_rec.match_ = 0 := found.curr
    rw [if_neg (by omega)]
    rfl
  | cons node others =>
    have whole := match_whole_iff target found
    by_cases here : node.key = gv_currkey.bytes
    · obtain ⟨rest, head, _⟩ := found.head
      have value := HeadRecord.value head
      have size := head.rsiz
      have count := head.cmpc
      have upto := head.upto
      have shared := commonPrefix_le node.key (lastNode [] below)
      have less := (List.pairwise_cons.mp found.back.sorted).1
      have grows := found.back.lt_all node List.mem_cons_self
      rw [commonPrefix_comm grows, here, width] at shared
      rw [if_pos (whole.mpr here), count, size]
      rw [here, width] at value
      unfold Node.size at upto ⊢
      rw [here, width] at upto ⊢
      generalize commonPrefix (lastNode [] below) gv_currkey.bytes = c at *
      have length : (((SIZEOF_rec_hdr + (gv_currkey.end_ + 1 - c) + node.value.length : Nat) : Int) + (c : Nat) -
          SIZEOF_rec_hdr - ((gv_currkey.end_ + 1 : Nat) : Int)) = node.value.length := by omega
      have place : (leafOf hist).status.curr_rec.offset +
          (SIZEOF_rec_hdr + (gv_currkey.end_ + 1 - c) + node.value.length) - node.value.length =
          (leafOf hist).status.curr_rec.offset + (SIZEOF_rec_hdr + (gv_currkey.end_ + 1 - c)) := by omega
      have first : ((node :: others).find? fun n => n.key = gv_currkey.bytes) = some node :=
        List.find?_cons_of_pos (by simpa using here)
      rw [length, Int.toNat_natCast, if_neg (by omega), place, value, first]
      rfl
    · have none : (others.find? fun n => n.key = gv_currkey.bytes) = none := by
        apply List.find?_eq_none.mpr
        intro n member
        have sorted := (List.pairwise_cons.mp found.back.sorted).1 n member
        have notLess := found.notLess node List.mem_cons_self
        simpa using fun same : n.key = gv_currkey.bytes => notLess (same ▸ sorted)
      rw [if_neg (fun all => here (whole.mp all)), List.find?_cons_of_neg (by simpa using here), none]
      rfl

/-- A node that lies in another leaf. -/
theorem gvcst_get2_lookup_other :
    gvcst_get2 smallDatabase (smallGlobals []).gv_altkey (smallGlobals [0x61, 0, 0xff, 0x78, 0, 0]).gv_currkey 1 =
      .ok (lookup [0x61, 0, 0xff, 0x78, 0, 0] (smallNodes ++ otherNodes)) := by
  have key : (smallGlobals [0x61, 0, 0xff, 0x78, 0, 0]).gv_currkey.bytes = [0x61, 0, 0xff, 0x78, 0, 0] := by decide
  have grammar := otherLeaf_holds.stored.grammar ⟨[0x61, 0, 0xff, 0x78, 0, 0], [6]⟩ (by decide)
  have reads := @gvcst_get2_lookup smallDatabase 1 _ (smallGlobals []).gv_altkey
    (smallGlobals [0x61, 0, 0xff, 0x78, 0, 0]).gv_currkey smallDatabase_holds ⟨key ▸ grammar.1, by decide⟩ (by decide)
  rw [key] at reads
  exact reads


/-! ## $DATA -/

/-- Whether a node is a descendant of the one at a key. -/
def descendant (t : List UInt8) (n : Node) : Bool := n.key ≠ t ∧ killPrefix true t <+: n.key

/-- What $DATA says: 1 for a value, 10 for descendants. -/
def dataOf (t : List UInt8) (nodes : List Node) : Int :=
  (if (nodes.any fun n => n.key = t) then 1 else 0) + if nodes.any (descendant t) then 10 else 0

theorem killPrefix_take (gv_currkey : KeyBuffer) :
    gv_currkey.bytes.take gv_currkey.end_ = killPrefix true gv_currkey.bytes := by
  have width := gv_currkey.length_bytes
  unfold killPrefix
  rw [if_pos rfl, List.dropLast_eq_take, width, Nat.add_sub_cancel]

/-- A search that matches all but the last byte has found the node or a descendant. -/
theorem match_end_iff (found : SearchedLeaf buffaddr gv_currkey.bytes bh below (node :: others)) :
    bh.curr_rec.match_ ≥ gv_currkey.end_ ↔ killPrefix true gv_currkey.bytes <+: node.key := by
  have width := gv_currkey.length_bytes
  have curr : bh.curr_rec.match_ = commonPrefix gv_currkey.bytes node.key := found.curr
  rw [curr, ← killPrefix_take gv_currkey]
  exact le_commonPrefix_iff (by omega)

/-- The ends of the range of a key and its descendants. -/
theorem killEnds_subtree {key : List UInt8} (wellFormed : WellFormedKey key) :
    ∃ q, KillEnds true key (q ++ [1, KEY_DELIMITER, KEY_DELIMITER]) q := by
  obtain ⟨body, whole, _⟩ := wellFormed.ends
  refine ⟨body, .inr whole, rfl, ?_⟩
  unfold killPrefix
  rw [if_pos rfl, whole, List.dropLast_append_of_ne_nil (by decide)]
  rfl

/-- The descendants of a key stand directly behind it. -/
theorem any_descendant {front rest : List Node} (wellFormed : WellFormedKey t)
    (grammar : ∀ n ∈ front ++ rest, WellFormedKey n.key) (sorted : rest.Pairwise fun a b => a.key < b.key)
    (upto : ∀ n ∈ front, n.key < t ∨ n.key = t) (greater : ∀ n ∈ rest, t < n.key) :
    (front ++ rest).any (descendant t) = rest.head?.elim false fun n => decide (killPrefix true t <+: n.key) := by
  obtain ⟨q, ends⟩ := killEnds_subtree wellFormed
  have inRange : ∀ n ∈ front ++ rest, killPrefix true t <+: n.key →
      ¬ n.key < t ∧ n.key < q ++ [1, KEY_DELIMITER, KEY_DELIMITER] := fun n member begins =>
    (ends.mem_iff wellFormed (grammar n member)).mpr begins
  have noneInFront : front.any (descendant t) = false := by
    rw [List.any_eq_false]
    intro n member here
    unfold descendant at here
    obtain ⟨other, begins⟩ := of_decide_eq_true here
    cases upto n member with
    | inl less => exact (inRange n (List.mem_append_left _ member) begins).1 less
    | inr same => exact other same
  rw [List.any_append, noneInFront, Bool.false_or]
  cases rest with
  | nil => rfl
  | cons first rest =>
    have beyond := greater first List.mem_cons_self
    have here : descendant t first = decide (killPrefix true t <+: first.key) := by
      unfold descendant
      have other : first.key ≠ t := fun same => List.lt_irrefl _ (same ▸ beyond)
      simp [other]
    rw [List.any_cons, here]
    change (_ || _) = decide (killPrefix true t <+: first.key)
    by_cases begins : killPrefix true t <+: first.key
    · rw [decide_eq_true begins]
      rfl
    · rw [decide_eq_false begins, Bool.false_or, List.any_eq_false]
      intro n member later
      unfold descendant at later
      have range := inRange n (List.mem_append_right _ (List.mem_cons_of_mem _ member)) (of_decide_eq_true later).2
      have less := (List.pairwise_cons.mp sorted).1 n member
      apply begins
      apply (ends.mem_iff wellFormed (grammar first (List.mem_append_right _ List.mem_cons_self))).mp
      exact ⟨fun below => List.lt_irrefl _ (List.lt_trans below beyond), List.lt_trans less range.2⟩

/-- The count of the record behind. -/
theorem Stored.next_cmpc {place len : Nat} {prev rest : List UInt8} (read : buffaddr.read place len = rest)
    (stored : Stored prev rest (node :: others)) : EVAL_CMPC buffaddr place = commonPrefix prev node.key := by
  cases stored with
  | @cons _ hdr rest _ _ wellFormed short order header more =>
    rw [List.append_assoc, List.append_assoc] at read
    obtain ⟨top, _, _⟩ := read_eq_append read
    rw [header.length] at top
    rw [← top] at header
    exact (isHeader_read.mp header).2

/-- The count of the right sibling. -/
theorem countRight_path (path : Path db gv_currkey.bytes nLevl blk hist left below above right)
    (around : Around nodes gv_currkey.bytes left below above right) (target : WellFormedTarget gv_currkey)
    (room : MAX_KEY_SZ ≤ gv_altkey.top) (val : Int) :
    countRight db gv_altkey gv_currkey hist val =
      .ok (if (right.head?.elim false fun n => decide (killPrefix true gv_currkey.bytes <+: n.key)) then val + 10
        else val) := by
  unfold countRight
  cases rightRecord_path path around target room with
  | inl ends =>
    rw [ends.2, ends.1]
    rfl
  | inr sibling =>
    obtain ⟨bh, node, others, rest, result, rfl, held⟩ := sibling
    have iff := match_end_iff held
    have first : ((node :: rest).head?.elim false fun n => decide (killPrefix true gv_currkey.bytes <+: n.key)) =
        decide (killPrefix true gv_currkey.bytes <+: node.key) := rfl
    rw [result, first]
    dsimp only
    by_cases begins : killPrefix true gv_currkey.bytes <+: node.key
    · rw [if_pos (iff.mpr begins), if_pos (decide_eq_true begins)]
    · rw [if_neg (fun full => begins (iff.mp full)), if_neg (fun some => begins (of_decide_eq_true some))]

/-- $DATA by value and descendants. -/
theorem dataOf_eq (t : List UInt8) (nodes : List Node) :
    dataOf t nodes = (if (lookup t nodes).isSome then 1 else 0) + if nodes.any (descendant t) then 10 else 0 := by
  unfold dataOf lookup
  rw [Option.isSome_map, List.isSome_find?]

theorem lookup_of_greater (greater : ∀ n ∈ nodes, t < n.key) : lookup t nodes = none := by
  unfold lookup
  rw [List.find?_eq_none.mpr, Option.map_none]
  intro n member same
  have less := greater n member
  rw [of_decide_eq_true same] at less
  exact List.lt_irrefl _ less

/-- Only the next node tells of descendants. -/
theorem TreeHolds.any_descendant (tree : TreeHolds db root nodes) {front rest : List Node}
    (parts : nodes = front ++ rest) (wellFormed : WellFormedKey t)
    (upto : ∀ n ∈ front, n.key < t ∨ n.key = t) (greater : ∀ n ∈ rest, t < n.key) :
    nodes.any (descendant t) = rest.head?.elim false fun n => decide (killPrefix true t <+: n.key) := by
  have grammar := tree.grammar
  have sorted := tree.sorted
  rw [parts] at grammar sorted ⊢
  exact GlobalTree.any_descendant wellFormed grammar (List.pairwise_append.mp sorted).2.1 upto greater

/-- The answer, or -1 for a dummy value. -/
theorem orDummy_ok {is_dummy : Bool} {value : List UInt8} (dummy : is_dummy = true ↔ value = [0])
    (sn_disallowed : Bool) (val : Int) :
    orDummy is_dummy sn_disallowed (.ok val) =
      .ok (if value = [0] ∧ sn_disallowed = false then -1 else val) := by
  unfold orDummy
  simp only [Except.map, dummy, Bool.not_eq_true]

section Data

variable {altkey : KeyBuffer} (tree : TreeHolds db root nodes) (target : WellFormedTarget gv_currkey)
  (sn_disallowed : Bool)
  (result : gvcst_search db false false gv_altkey gv_currkey root = .ok (hist, altkey))

include tree target result

/-- When the leaf has no further node, the right sibling tells. -/
theorem gvcst_data2_end (path : Path db gv_currkey.bytes nLevl blk hist left below [] right)
    (around : Around nodes gv_currkey.bytes left below [] right) (room : MAX_KEY_SZ ≤ gv_altkey.top) :
    gvcst_data2 db sn_disallowed gv_altkey gv_currkey root =
      .ok (if nodes.any (descendant gv_currkey.bytes) then 10 else 0) := by
  obtain ⟨_, found⟩ := path.leaf_found
  have zero : (leafOf hist).status.curr_rec.match_ = 0 := found.curr
  have atTop : (leafOf hist).status.curr_rec.offset = bsiz (db.t_qread (leafOf hist).blk_num) := by
    have ends := (top_iff found).mpr rfl
    have last := found.last
    omega
  have long := target.wellFormed.length_ge
  have width := gv_currkey.length_bytes
  have parts : nodes = (left ++ below) ++ right := by
    rw [around.nodes, List.append_nil]
  have descendants := tree.any_descendant parts target.wellFormed (fun n member => .inl (around.less n member))
    around.greater
  unfold gvcst_data2
  rw [result]
  dsimp only
  rw [if_neg (by omega), if_neg (by omega), if_pos atTop, countRight_path path around target room, descendants,
    Int.zero_add]

/-- A first node behind the key tells by itself. -/
theorem gvcst_data2_behind (path : Path db gv_currkey.bytes nLevl blk hist left below (node :: others) right)
    (around : Around nodes gv_currkey.bytes left below (node :: others) right)
    (greater : ∀ n ∈ node :: others, gv_currkey.bytes < n.key) :
    gvcst_data2 db sn_disallowed gv_altkey gv_currkey root =
      .ok (if nodes.any (descendant gv_currkey.bytes) then 10 else 0) := by
  obtain ⟨_, found⟩ := path.leaf_found
  have other : node.key ≠ gv_currkey.bytes := fun same =>
    List.lt_irrefl _ (same ▸ greater node List.mem_cons_self)
  have notFull := mt (match_whole_iff target found).mp other
  have notTop := mt (top_iff found).mp (List.cons_ne_nil _ _)
  have begins := match_end_iff found
  have parts : nodes = (left ++ below) ++ (node :: others ++ right) := by
    rw [around.nodes]
    simp only [List.append_assoc]
  have descendants : nodes.any (descendant gv_currkey.bytes) =
      decide (killPrefix true gv_currkey.bytes <+: node.key) := by
    refine tree.any_descendant parts target.wellFormed (fun n member => .inl (around.less n member)) ?_
    intro n member
    cases List.mem_append.mp member with
    | inl front => exact greater n front
    | inr back => exact around.greater n back
  unfold gvcst_data2
  rw [result]
  dsimp only
  rw [if_neg notFull, descendants]
  by_cases some : killPrefix true gv_currkey.bytes <+: node.key
  · rw [if_pos (begins.mpr some), decide_eq_true some]
    rfl
  · rw [if_neg (fun full => some (begins.mp full)), decide_eq_false some, if_neg (by omega)]
    rfl

/-- The record of the key, and the one behind it, in the leaf or in its right sibling. -/
theorem gvcst_data2_here (path : Path db gv_currkey.bytes nLevl blk hist left below (node :: others) right)
    (around : Around nodes gv_currkey.bytes left below (node :: others) right)
    (here : node.key = gv_currkey.bytes) (room : MAX_KEY_SZ ≤ gv_altkey.top) :
    gvcst_data2 db sn_disallowed gv_altkey gv_currkey root =
      .ok (if node.value = [0] ∧ sn_disallowed = false then -1
        else 1 + if nodes.any (descendant gv_currkey.bytes) then 10 else 0) := by
  obtain ⟨leaf, found⟩ := path.leaf_found
  have width := gv_currkey.length_bytes
  obtain ⟨rest, head, more⟩ := found.head
  have curr := (match_whole_iff target found).mpr here
  have upto := head.upto
  have shared := commonPrefix_le node.key (lastNode [] below)
  rw [commonPrefix_comm (found.back.lt_all node List.mem_cons_self)] at shared
  have dummy := @dummy_iff _ node _ _ rest (SIZEOF_rec_hdr + ((leafOf hist).status.curr_rec.match_ : Nat) -
    (EVAL_CMPC (db.t_qread (leafOf hist).blk_num) (leafOf hist).status.curr_rec.offset : Nat)) head shared (by
      rw [← curr, head.cmpc, here, width])
  have parts : nodes = (left ++ below ++ [node]) ++ (others ++ right) := by
    rw [around.nodes]
    simp only [List.append_assoc, List.cons_append, List.nil_append]
  have descendants : nodes.any (descendant gv_currkey.bytes) =
      (others ++ right).head?.elim false fun n => decide (killPrefix true gv_currkey.bytes <+: n.key) := by
    have after := (List.pairwise_cons.mp found.back.sorted).1
    refine tree.any_descendant parts target.wellFormed ?_ ?_
    · intro n member
      cases List.mem_append.mp member with
      | inl front => exact .inl (around.less n front)
      | inr same => exact .inr (List.mem_singleton.mp same ▸ here)
    · intro n member
      cases List.mem_append.mp member with
      | inl front => exact here ▸ after n front
      | inr back => exact around.greater n back
  have restLen := congrArg List.length head.rest
  rw [ByteMemory.length_read] at restLen
  have back := more.length_eq
  unfold gvcst_data2
  rw [result]
  dsimp only
  rw [if_pos curr, head.rsiz, if_neg (by omega), ← head.rsiz]
  cases others with
  | nil =>
    have none : storedSize node.key [] = 0 := rfl
    have ends : (leafOf hist).status.curr_rec.offset +
        rsiz (db.t_qread (leafOf hist).blk_num) (leafOf hist).status.curr_rec.offset =
        bsiz (db.t_qread (leafOf hist).blk_num) := by
      rw [head.rsiz]
      omega
    rw [if_pos ends, countRight_path path around target room, orDummy_ok dummy, descendants, List.nil_append]
    by_cases begins : (right.head?.elim false fun n => decide (killPrefix true gv_currkey.bytes <+: n.key)) = true
    · rw [if_pos begins, if_pos begins]
    · rw [if_neg begins, if_neg begins, Int.add_zero]
  | cons next others =>
    have some := @KilledRange.storedSize_pos node.key (next :: others) (List.cons_ne_nil _ _)
    have restEq := head.rest
    rw [← head.rsiz] at restEq
    have first : ((next :: others ++ right).head?.elim false fun n =>
        decide (killPrefix true gv_currkey.bytes <+: n.key)) =
        decide (killPrefix true gv_currkey.bytes <+: next.key) := rfl
    have iff : commonPrefix gv_currkey.bytes next.key ≥ gv_currkey.end_ ↔
        killPrefix true gv_currkey.bytes <+: next.key := by
      rw [← killPrefix_take gv_currkey]
      exact le_commonPrefix_iff (by omega)
    rw [if_neg (by rw [head.rsiz]; omega), Stored.next_cmpc restEq more, here, orDummy_ok dummy, descendants, first]
    by_cases begins : killPrefix true gv_currkey.bytes <+: next.key
    · rw [if_pos (iff.mpr begins), if_pos (decide_eq_true begins)]
      rfl
    · rw [if_neg (fun full => begins (iff.mp full)), if_neg (fun some => begins (of_decide_eq_true some))]
      rfl

end Data

/-- $DATA, searching from the root without a clue, says whether the node has a value and whether it has descendants,
or that the value is the dummy value of a spanning node. -/
theorem gvcst_data2_dataOf (tree : TreeHolds db root nodes) (target : WellFormedTarget gv_currkey)
    (room : MAX_KEY_SZ ≤ gv_altkey.top) (sn_disallowed : Bool) :
    gvcst_data2 db sn_disallowed gv_altkey gv_currkey root =
      .ok (if lookup gv_currkey.bytes nodes = some [0] ∧ sn_disallowed = false then -1
        else dataOf gv_currkey.bytes nodes) := by
  obtain ⟨hist, altkey, left, below, above, right, result, path, around⟩ := gvcst_search_path tree target room false
  have absent : ∀ answer : Int, lookup gv_currkey.bytes above = none →
      answer = (if nodes.any (descendant gv_currkey.bytes) then 10 else 0) →
      answer = if lookup gv_currkey.bytes nodes = some [0] ∧ sn_disallowed = false then -1
        else dataOf gv_currkey.bytes nodes := by
    intro answer none same
    rw [dataOf_eq]
    unfold lookup at none ⊢
    rw [around.find_above, none, if_neg (fun impossible => nomatch impossible.1), same]
    exact (Int.zero_add _).symm
  cases above with
  | nil =>
    rw [gvcst_data2_end tree target sn_disallowed result path around room]
    exact congrArg Except.ok (absent _ rfl rfl)
  | cons node others =>
    by_cases here : node.key = gv_currkey.bytes
    · have value : lookup gv_currkey.bytes nodes = some node.value := by
        unfold lookup
        rw [around.find_above, List.find?_cons_of_pos (by simpa using here)]
        rfl
      rw [gvcst_data2_here tree target sn_disallowed result path around here room, dataOf_eq, value]
      simp only [Option.some.injEq, Option.isSome_some, if_true]
    · obtain ⟨_, found⟩ := path.leaf_found
      have notLess := found.notLess node List.mem_cons_self
      have less : gv_currkey.bytes < node.key := by
        by_contra notGreater
        exact here (List.le_antisymm (List.not_lt.mp notGreater) (List.not_lt.mp notLess))
      have greater : ∀ n ∈ node :: others, gv_currkey.bytes < n.key := by
        intro n member
        cases List.mem_cons.mp member with
        | inl same => exact same ▸ less
        | inr later => exact List.lt_trans less ((List.pairwise_cons.mp found.back.sorted).1 n later)
      rw [gvcst_data2_behind tree target sn_disallowed result path around greater]
      exact congrArg Except.ok (absent _ (lookup_of_greater greater) rfl)

/-- `$DATA` of the first node. -/
theorem gvcst_data2_dataOf_first :
    gvcst_data2 smallDatabase false (smallGlobals []).gv_altkey (smallGlobals [0x61, 0, 0]).gv_currkey 1 =
      .ok (if lookup [0x61, 0, 0] (smallNodes ++ otherNodes) = some [0] ∧ false = false then -1
        else dataOf [0x61, 0, 0] (smallNodes ++ otherNodes)) := by
  have key : (smallGlobals [0x61, 0, 0]).gv_currkey.bytes = [0x61, 0, 0] := by decide
  have reads := @gvcst_data2_dataOf smallDatabase 1 _ (smallGlobals []).gv_altkey
    (smallGlobals [0x61, 0, 0]).gv_currkey smallDatabase_holds ⟨key ▸ smallNodes_grammar.1, by decide⟩ (by decide) false
  rw [key] at reads
  exact reads


end Ydb.GlobalTree
