import Ydb.KillRange

/-!
# Removing nodes of a leaf

A kill takes the nodes of a range out of a leaf. The record behind them shared with the last of them what it
need not share with the node in front; these bytes of its key are those of the search key, for the search key
and the key behind the range part nowhere else than the removed keys and the key behind them.
-/

namespace Ydb.BlockUpdate

open Lib

/-! ## What keys share -/

section Shared

variable {a b c : List UInt8} {node : Node} {nodes : List Node} {prev key altkey q x : List UInt8} {do_subtree : Bool}

theorem commonPrefix_upto (left : a < b) (right : ¬ c < b) :
    commonPrefix a c = min (commonPrefix a b) (commonPrefix b c) := by
  by_cases same : b = c
  · subst same
    have inside := (partsAt_commonPrefix left).length_right
    rw [commonPrefix_self]
    omega
  · have less : b < c := by
      by_contra notLess
      exact same (List.le_antisymm (List.not_lt.mp right) (List.not_lt.mp notLess))
    exact commonPrefix_between left less

theorem commonPrefix_comm (less : a < b) : commonPrefix b a = commonPrefix a b := by
  obtain ⟨left, right⟩ := (partsAt_commonPrefix less).commonPrefix_eq
  exact right.trans left.symm

/-- Sequences of one beginning that part behind it. -/
theorem commonPrefix_append_cons {x y : UInt8} {rest rest' : List UInt8} (differ : x ≠ y) :
    commonPrefix (q ++ x :: rest) (q ++ y :: rest') = q.length := by
  induction q with
  | nil => exact if_neg differ
  | cons z q ih =>
    rw [List.cons_append, List.cons_append, commonPrefix, if_pos rfl, ih, List.length_cons]

/-- The key of a kill and the keys of its range part from the alternate key at one place. -/
theorem KillEnds.shared (ends : KillEnds do_subtree key altkey q) :
    commonPrefix key altkey = q.length ∧
      ∀ x, killPrefix do_subtree key <+: x → commonPrefix x altkey = q.length := by
  have differ : KEY_DELIMITER ≠ 1 := by decide
  rw [ends.behind]
  constructor
  · cases ends.first with
    | inl same =>
      rw [same]
      exact commonPrefix_append_cons differ
    | inr same =>
      rw [same]
      exact commonPrefix_append_cons differ
  · intro x begins
    rw [ends.begins] at begins
    obtain ⟨rest, rfl⟩ := begins
    rw [List.append_assoc]
    exact commonPrefix_append_cons differ

/-- The size of two runs of records. -/
theorem storedSize_append {others : List Node} :
    storedSize prev (nodes ++ others) = storedSize prev nodes + storedSize (lastNode prev nodes) others := by
  induction nodes generalizing prev with
  | nil => exact (Nat.zero_add _).symm
  | cons node nodes ih =>
    rw [List.cons_append, storedSize, ih, storedSize, lastNode_cons, Nat.add_assoc]

/-- What a key shares more with the last of some nodes than with the key in front of them has room in their
records. -/
theorem shared_le_storedSize (front : ∀ n ∈ nodes, prev < n.key) (sorted : nodes.Pairwise fun a b => a.key < b.key)
    (behind : ∀ n ∈ nodes, n.key < x) (start : prev < x) :
    commonPrefix (lastNode prev nodes) x ≤ commonPrefix prev x + storedSize prev nodes := by
  induction nodes generalizing prev with
  | nil => exact Nat.le_add_right _ _
  | cons node nodes ih =>
    have parts := List.pairwise_cons.mp sorted
    have less := behind node List.mem_cons_self
    have rest := ih parts.1 parts.2 (fun n member => behind n (List.mem_cons_of_mem _ member)) less
    have between := commonPrefix_between (front node List.mem_cons_self) less
    have inside := commonPrefix_le node.key x
    have size : storedSize prev (node :: nodes) = node.size (commonPrefix prev node.key) + storedSize node.key nodes :=
      rfl
    rw [lastNode_cons, size]
    unfold Node.size
    omega

end Shared

/-! ## Segments -/

/-- Segments from which a leaf with the given nodes is built in place, the first segment first. -/
structure Keeps (buffaddr : ByteMemory) (segments : List BlkSegment) (first_copy : Bool) (nodes : List Node) :
    Prop where
  stored : Stored [] (assembled buffaddr (fragments segments)) nodes
  sources : ∀ f ∈ fragments segments, f.StartsFrom SIZEOF_blk_hdr
  inPlace : first_copy = false → ∃ n : Nat, ∃ rest, segments = .buffer SIZEOF_blk_hdr n :: rest
  clear : ClearForward (fragments segments) SIZEOF_blk_hdr
  lens : (segments.map BlkSegment.len).sum = (totalLen (fragments segments) : Nat)

section Segments

variable {buffaddr : ByteMemory} {segments back : List BlkSegment} {nodes : List Node} {first_copy : Bool}

/-- The segments are as long as what they keep. -/
theorem Keeps.total (keeps : Keeps buffaddr segments first_copy nodes) :
    totalLen (fragments segments) = storedSize [] nodes := by
  rw [← length_assembled, keeps.stored.length_eq]

/-- Segments that can be moved build a leaf. -/
theorem Keeps.builds (keeps : Keeps buffaddr segments first_copy nodes) {blk_size : Nat}
    (fits : SIZEOF_blk_hdr + storedSize [] nodes ≤ blk_size) (small : blk_size ≤ MAX_DB_BLK_SIZE)
    {cse : CwSetElement} (level : cse.level = 0) (forward : cse.forward_process = true)
    (first : first_copy = true → cse.first_copy = true) {twin : Twin} {base_addr : ByteMemory}
    (copied : twin.isSome = true → cse.first_copy = true) (source : twin.getD base_addr = buffaddr) (ctn : Nat) :
    Leaf blk_size (gvcst_blk_build cse ⟨SIZEOF_blk_hdr + storedSize [] nodes, segments⟩ ctn twin base_addr)
      nodes := by
  have limit : SIZEOF_blk_hdr + storedSize [] nodes < 2 ^ 32 := by
    unfold MAX_DB_BLK_SIZE at small
    omega
  have total : SIZEOF_blk_hdr + storedSize [] nodes = SIZEOF_blk_hdr + totalLen (fragments segments) := by
    rw [keeps.total]
  have alone : cse.first_copy = false →
      twin = none ∧ ∃ n : Nat, ∃ rest, segments = .buffer SIZEOF_blk_hdr n :: rest := by
    intro not
    constructor
    · cases twin with
      | none => exact rfl
      | some old =>
        rw [copied rfl] at not
        cases not
    · apply keeps.inPlace
      cases first_copy with
      | false => exact rfl
      | true =>
        rw [first rfl] at not
        cases not
  have clear : twin = none → ClearBuild cse.forward_process segments (SIZEOF_blk_hdr + storedSize [] nodes) := by
    intro _
    unfold ClearBuild
    rw [if_pos forward]
    exact keeps.clear
  have built := @gvcst_blk_build_built twin base_addr cse ⟨SIZEOF_blk_hdr + storedSize [] nodes, segments⟩ ctn
    total limit (by omega) keeps.sources alone clear
  rw [source, level] at built
  exact built.leaf keeps.stored (Nat.le_add_right _ _) fits small

/-- Behind the kept front stand some new bytes and the rest of the block, or nothing. -/
structure RestSegments (back : List BlkSegment) (place : Nat) : Prop where
  parts : back = [] ∨ ∃ news : List (List UInt8), ∃ addr len : Nat,
    back = news.map .array ++ [.buffer addr len] ∧ place + totalLen (news.map .new) ≤ addr

/-- New bytes in front of what is moved forward are not in its way. -/
theorem clearForward_news {news : List (List UInt8)} {addr len ptr : Nat}
    (room : ptr + totalLen (news.map .new) ≤ addr) :
    ClearForward (news.map .new ++ [.source addr len]) ptr := by
  induction news generalizing ptr with
  | nil => exact ⟨fun f member => absurd member List.not_mem_nil, trivial⟩
  | cons bytes news ih =>
    rw [List.map_cons, totalLen_cons] at room
    refine ⟨?_, ih (by omega)⟩
    intro f member
    cases List.mem_append.mp member with
    | inl new =>
      obtain ⟨more, _, rfl⟩ := List.mem_map.mp new
      exact trivial
    | inr last =>
      rw [List.mem_singleton.mp last]
      exact Nat.le_trans (Nat.add_le_add_left (Nat.le_add_right _ _) ptr) room

theorem fragments_rest {news : List (List UInt8)} {addr len : Nat} :
    fragments (news.map .array ++ [.buffer addr len]) = news.map .new ++ [.source addr len] := by
  have width : (len : Int).toNat = len := Int.toNat_natCast len
  rw [fragments_append, fragments_news, fragments_cons, fragments_nil, BlkSegment.fragment, width]

theorem RestSegments.clear {place : Nat} (rest : RestSegments back place) : ClearForward (fragments back) place := by
  cases rest.parts with
  | inl none =>
    subst none
    exact trivial
  | inr some =>
    obtain ⟨news, addr, len, rfl, room⟩ := some
    rw [fragments_rest]
    exact clearForward_news room

theorem RestSegments.sources {place : Nat} (rest : RestSegments back place) :
    ∀ f ∈ fragments back, f.StartsFrom place := by
  intro f member
  cases rest.parts with
  | inl none =>
    subst none
    exact absurd member List.not_mem_nil
  | inr some =>
    obtain ⟨news, addr, len, rfl, room⟩ := some
    rw [fragments_rest] at member
    cases List.mem_append.mp member with
    | inl new =>
      obtain ⟨bytes, _, rfl⟩ := List.mem_map.mp new
      exact trivial
    | inr last =>
      rw [List.mem_singleton.mp last]
      exact Nat.le_trans (Nat.le_add_right _ _) room

theorem RestSegments.lens {place : Nat} (rest : RestSegments back place) :
    (back.map BlkSegment.len).sum = (totalLen (fragments back) : Nat) := by
  cases rest.parts with
  | inl none =>
    subst none
    exact rfl
  | inr some =>
    obtain ⟨news, addr, len, rfl, room⟩ := some
    rw [fragments_rest, List.map_append, List.sum_append, sum_news, totalLen_append, Int.natCast_add]
    exact rfl

theorem frontSegments_leaf (left_ptr del_ptr right_ptr : Nat) (cmpc2 : UInt8) :
    frontSegments buffaddr 0 left_ptr del_ptr right_ptr cmpc2 =
      if SIZEOF_blk_hdr < del_ptr then ([.buffer SIZEOF_blk_hdr (del_ptr - SIZEOF_blk_hdr)], false)
      else ([], true) := by
  unfold frontSegments
  rw [if_pos (.inr rfl : right_ptr ≠ bsiz buffaddr ∨ 0 = 0)]

/-- The records in front of a place are kept and the rest is put behind them. -/
theorem keeps_removal {place : Nat} (first : SIZEOF_blk_hdr ≤ place) (rest : RestSegments back place)
    (stored : Stored [] (buffaddr.read SIZEOF_blk_hdr (place - SIZEOF_blk_hdr) ++
      assembled buffaddr (fragments back)) nodes) (left_ptr right_ptr : Nat) (cmpc2 : UInt8) :
    let front := frontSegments buffaddr 0 left_ptr place right_ptr cmpc2
    Keeps buffaddr (front.1 ++ back) front.2 nodes := by
  dsimp only
  rw [frontSegments_leaf]
  have sources : ∀ f ∈ fragments back, f.StartsFrom SIZEOF_blk_hdr := by
    intro f member
    have above := rest.sources f member
    cases f with
    | source addr len => exact Nat.le_trans first above
    | new bytes => exact trivial
  by_cases some : SIZEOF_blk_hdr < place
  · have width : ((place : Int) - SIZEOF_blk_hdr) = (place - SIZEOF_blk_hdr : Nat) := by omega
    rw [if_pos some]
    dsimp only
    rw [width, List.singleton_append]
    have len : (BlkSegment.buffer SIZEOF_blk_hdr (place - SIZEOF_blk_hdr : Nat)).fragment.len =
        place - SIZEOF_blk_hdr := Int.toNat_natCast _
    have upto : SIZEOF_blk_hdr + (place - SIZEOF_blk_hdr) = place := by omega
    refine ⟨?_, ?_, fun _ => ⟨_, back, rfl⟩, ?_, ?_⟩
    · rw [fragments_cons, assembled_cons]
      exact stored
    · intro f member
      rw [fragments_cons] at member
      cases List.mem_cons.mp member with
      | inl same =>
        subst same
        exact Nat.le_refl _
      | inr behind => exact sources f behind
    · rw [fragments_cons]
      unfold ClearForward
      rw [len, upto]
      exact ⟨rest.sources, rest.clear⟩
    · rw [List.map_cons, List.sum_cons, rest.lens, fragments_cons, totalLen_cons, len, Int.natCast_add]
      exact rfl
  · obtain rfl : place = SIZEOF_blk_hdr := Nat.le_antisymm (Nat.not_lt.mp some) first
    rw [if_neg some]
    dsimp only
    rw [List.nil_append]
    rw [Nat.sub_self] at stored
    exact ⟨stored, sources, fun impossible => absurd impossible (by decide), rest.clear, rest.lens⟩

end Segments

/-! ## The range in a leaf -/

/-- The nodes that a kill leaves. -/
def killNodes (do_subtree : Bool) (t : List UInt8) (nodes : List Node) : List Node :=
  nodes.filter fun n => ¬ killPrefix do_subtree t <+: n.key

section Range

variable {buffaddr : ByteMemory} {do_subtree : Bool} {key altkey q : List UInt8} {left right : SrchBlkStatus}
variable {below above below' above' removed : List Node}

/-- Two searches in one leaf have the range between them. -/
theorem range_between (searched : SearchedLeaf buffaddr key left below above)
    (searched' : SearchedLeaf buffaddr altkey right below' above') (order : key < altkey)
    (same : below ++ above = below' ++ above') : ∃ removed, below' = below ++ removed ∧ above = removed ++ above' := by
  cases List.append_eq_append_iff.mp same with
  | inl longer => exact longer
  | inr shorter =>
    obtain ⟨between, rfl, rfl⟩ := shorter
    cases between with
    | nil => exact ⟨[], by rw [List.append_nil, List.append_nil], rfl⟩
    | cons n between =>
      have less := searched.less n (List.mem_append_right _ List.mem_cons_self)
      have notLess := searched'.notLess n List.mem_cons_self
      exact absurd (List.lt_trans less order) notLess

/-- What a kill removes from a leaf. -/
structure KilledRange (buffaddr : ByteMemory) (do_subtree : Bool) (key altkey q : List UInt8)
    (left right : SrchBlkStatus) (below removed above : List Node) : Prop where
  target : WellFormedKey key
  ends : KillEnds do_subtree key altkey q
  low : SearchedLeaf buffaddr key left below (removed ++ above)
  high : SearchedLeaf buffaddr altkey right (below ++ removed) above

namespace KilledRange

/-- The second key of a kill is behind the first. -/
theorem order (range : KilledRange buffaddr do_subtree key altkey q left right below removed above) : key < altkey := by
  have ends := range.ends
  have less : ∀ rest, q ++ KEY_DELIMITER :: rest < q ++ [1, KEY_DELIMITER, KEY_DELIMITER] := fun rest =>
    append_lt_append (List.cons_lt_cons_iff.mpr (.inl (by decide)))
  rw [ends.behind]
  cases ends.first with
  | inl same => exact same ▸ less []
  | inr same => exact same ▸ less [KEY_DELIMITER]

/-- Every node that is killed begins like the key. -/
theorem begins (range : KilledRange buffaddr do_subtree key altkey q left right below removed above) :
    ∀ n ∈ removed, killPrefix do_subtree key <+: n.key := by
  intro n member
  have wellFormed := (range.low.back.grammar n (List.mem_append_left _ member)).1
  apply (range.ends.mem_iff range.target wellFormed).mp
  exact ⟨range.low.notLess n (List.mem_append_left _ member), range.high.less n (List.mem_append_right _ member)⟩

/-- The range holds what the kill removes. -/
theorem killNodes_eq (range : KilledRange buffaddr do_subtree key altkey q left right below removed above) :
    killNodes do_subtree key (below ++ removed ++ above) = below ++ above := by
  have front : ∀ n ∈ below, ¬ killPrefix do_subtree key <+: n.key := by
    intro n member begins
    have wellFormed := (range.low.front.grammar n member).1
    exact ((range.ends.mem_iff range.target wellFormed).mpr begins).1 (range.low.less n member)
  have back : ∀ n ∈ above, ¬ killPrefix do_subtree key <+: n.key := by
    intro n member begins
    have wellFormed := (range.high.back.grammar n member).1
    exact range.high.notLess n member ((range.ends.mem_iff range.target wellFormed).mpr begins).2
  have first : below.filter (fun n => ¬ killPrefix do_subtree key <+: n.key) = below :=
    List.filter_eq_self.mpr fun n member => decide_eq_true (front n member)
  have last : above.filter (fun n => ¬ killPrefix do_subtree key <+: n.key) = above :=
    List.filter_eq_self.mpr fun n member => decide_eq_true (back n member)
  have none : removed.filter (fun n => ¬ killPrefix do_subtree key <+: n.key) = [] := by
    apply List.filter_eq_nil_iff.mpr
    intro n member
    have begins := range.begins n member
    simpa using begins
  unfold killNodes
  rw [List.filter_append, List.filter_append, first, none, last, List.append_nil]

/-- The node in front of the killed ones is below the key. -/
theorem front_lt (range : KilledRange buffaddr do_subtree key altkey q left right below removed above) :
    lastNode [] below < key := by
  unfold lastNode
  cases last : below.getLast? with
  | none =>
    have long := range.target.length_ge
    cases key with
    | nil => exact absurd long (by decide)
    | cons x rest => exact List.nil_lt_cons x rest
  | some n => exact range.low.less n (List.mem_of_getLast? last)

/-- The two searches end apart by the size of what is removed. -/
theorem places (range : KilledRange buffaddr do_subtree key altkey q left right below removed above) :
    left.curr_rec.offset = SIZEOF_blk_hdr + storedSize [] below ∧
      right.curr_rec.offset = left.curr_rec.offset + storedSize (lastNode [] below) removed ∧
      bsiz buffaddr = right.curr_rec.offset + storedSize (lastNode [] (below ++ removed)) above := by
  have low := range.low.front.length_eq
  have high := range.high.front.length_eq
  have back := range.high.back.length_eq
  have first := range.low.first
  have first' := range.high.first
  have last := range.high.last
  rw [ByteMemory.length_read] at low high back
  rw [storedSize_append] at high
  omega

theorem storedSize_pos {prev : List UInt8} {nodes : List Node} (some : nodes ≠ []) : 0 < storedSize prev nodes := by
  cases nodes with
  | nil => exact absurd rfl some
  | cons n nodes =>
    unfold storedSize Node.size SIZEOF_rec_hdr
    omega

theorem lastNode_append {prev : List UInt8} {front back : List Node} :
    lastNode prev (front ++ back) = lastNode (lastNode prev front) back := by
  unfold lastNode
  rw [List.getLast?_append]
  cases back.getLast? <;> rfl

/-- What the keys around the range share with the first key behind it. -/
theorem shared {node : Node} {others : List Node}
    (range : KilledRange buffaddr do_subtree key altkey q left right below removed (node :: others))
    (some : removed ≠ []) :
    let old := commonPrefix (lastNode [] (below ++ removed)) node.key
    commonPrefix key node.key = old ∧ old ≤ right.curr_rec.match_ ∧
      commonPrefix (lastNode [] below) node.key = min left.prev_rec.match_ old ∧
      old ≤ commonPrefix (lastNode [] below) node.key + storedSize (lastNode [] below) removed := by
  dsimp only
  have notLess := range.high.notLess node List.mem_cons_self
  have order := range.order
  have beyond : key < node.key := by
    by_contra notBeyond
    exact notLess (List.lt_of_le_of_lt (List.not_lt.mp notBeyond) order)
  have whole := commonPrefix_upto order notLess
  have last : ∃ n ∈ removed, lastNode [] (below ++ removed) = n.key := by
    rw [lastNode_append]
    unfold lastNode
    cases found : removed.getLast? with
    | none => exact absurd (List.getLast?_eq_none_iff.mp found) some
    | some n => exact ⟨n, List.mem_of_getLast? found, rfl⟩
  obtain ⟨n, member, isLast⟩ := last
  have inner := commonPrefix_upto (range.high.less n (List.mem_append_right _ member)) notLess
  have lmatch := range.low.prev
  rw [commonPrefix_comm range.front_lt] at lmatch
  have rmatch : right.curr_rec.match_ = commonPrefix altkey node.key := range.high.curr
  rw [range.ends.shared.1, ← rmatch] at whole
  rw [range.ends.shared.2 n.key (range.begins n member), ← rmatch] at inner
  rw [← isLast] at inner
  have outer := commonPrefix_between range.front_lt beyond
  rw [← lmatch, whole, ← inner] at outer
  have sorted := range.low.back.sorted
  have room : commonPrefix (lastNode (lastNode [] below) removed) node.key ≤
      commonPrefix (lastNode [] below) node.key + storedSize (lastNode [] below) removed := by
    have cut := List.pairwise_append.mp sorted
    apply shared_le_storedSize
    · exact fun m inside => range.low.back.lt_all m (List.mem_append_left _ inside)
    · exact cut.1
    · exact fun m inside => cut.2.2 m inside node List.mem_cons_self
    · exact List.lt_trans range.front_lt beyond
  rw [← lastNode_append] at room
  refine ⟨whole.trans inner.symm, ?_, outer, room⟩
  rw [inner]
  exact Nat.min_le_right _ _

end KilledRange

/-! ## The kill in a leaf -/

variable {g : UpdateGlobals}

/-- In a leaf only bytes of the search key come back. -/
theorem restoredBytes_leaf (right_prev_ptr right_ptr lmatch rmatch : Nat) :
    restoredBytes buffaddr right_prev_ptr right_ptr lmatch rmatch false =
      ⟨min rmatch lmatch, EVAL_CMPC buffaddr right_ptr - min rmatch lmatch, 0⟩ := by
  unfold restoredBytes
  have least : (if rmatch < lmatch then rmatch else lmatch) = min rmatch lmatch := by
    split <;> omega
  rw [least, if_neg Bool.false_ne_true]

/-- The segments behind the range give the record there the bytes that it shared with the range. -/
theorem backSegments_leaf {nodes : List Node} (leaf : Leaf g.blk_size buffaddr nodes)
    (range : KilledRange buffaddr do_subtree g.gv_currkey.bytes altkey q left right below removed above)
    (some : removed ≠ []) (right_prev_ptr : Nat) (cmpc2 : UInt8) :
    ∃ back, backSegments buffaddr g.gv_currkey right_prev_ptr right.curr_rec.offset
        (restoredBytes buffaddr right_prev_ptr right.curr_rec.offset left.prev_rec.match_ right.curr_rec.match_ false)
        cmpc2 = .ok back ∧
      RestSegments back left.curr_rec.offset ∧
      Stored (lastNode [] below) (assembled buffaddr (fragments back)) above := by
  obtain ⟨_, rightPlace, top⟩ := range.places
  have last := range.high.last
  rw [restoredBytes_leaf]
  unfold backSegments
  dsimp only
  cases above with
  | nil =>
    have atTop : right.curr_rec.offset = bsiz buffaddr := top.symm
    rw [if_pos atTop]
    exact ⟨[], rfl, ⟨.inl rfl⟩, .nil⟩
  | cons node others =>
    obtain ⟨agree, bound, kept, room⟩ := range.shared some
    obtain ⟨rest, head, more⟩ := range.high.head
    obtain ⟨wellFormed, short'⟩ := range.high.back.grammar node List.mem_cons_self
    have notLess := range.high.notLess node List.mem_cons_self
    have beyond : g.gv_currkey.bytes < node.key := by
      by_contra notBeyond
      exact notLess (List.lt_of_le_of_lt (List.not_lt.mp notBeyond) range.order)
    have between := List.lt_trans range.front_lt beyond
    have three := shared_add_three wellFormed (lastNode_grammar range.low.front) between
    have longer' := (partsAt_commonPrefix beyond).length_right
    have inside := commonPrefix_le g.gv_currkey.bytes node.key
    have size := head.rsiz
    have count := head.cmpc
    have upto := head.upto
    have data := head.data
    have fits := leaf.fits
    have small := leaf.small
    unfold MAX_DB_BLK_SIZE at small
    unfold MAX_KEY_SZ at short'
    have keyAgrees := (partsAt_commonPrefix beyond).agree
    rw [agree] at keyAgrees longer' inside
    generalize commonPrefix (lastNode [] (below ++ removed)) node.key = old at *
    generalize newIs : commonPrefix (lastNode [] below) node.key = new at *
    generalize right.curr_rec.offset = place at *
    have sizeEq : node.size old = SIZEOF_rec_hdr + (node.key.length - old) + node.value.length := rfl
    have newSizeEq : node.size new = SIZEOF_rec_hdr + (node.key.length - new) + node.value.length := rfl
    have headerSize : SIZEOF_rec_hdr = 4 := rfl
    have notTop : place ≠ bsiz buffaddr := by omega
    have restored : old - min right.curr_rec.match_ left.prev_rec.match_ = old - new := by omega
    rw [if_neg notTop, count, size, restored, Nat.add_zero]
    by_cases none : old - new = 0
    · -- the record is kept as it is
      have same : new = old := by omega
      rw [if_pos none]
      refine ⟨_, rfl, ⟨.inr ⟨[], place, bsiz buffaddr - place, ?_, ?_⟩⟩, ?_⟩
      · have width : (bsiz buffaddr : Int) - place = (bsiz buffaddr - place : Nat) := by omega
        rw [width]
        exact rfl
      · exact Nat.le_trans (Nat.le_of_eq (Nat.add_zero _)) (by omega)
      · have width : ((bsiz buffaddr : Int) - place).toNat = bsiz buffaddr - place := by omega
        have bytes : buffaddr.read place (bsiz buffaddr - place) =
            buffaddr.read place SIZEOF_rec_hdr ++ (node.key.drop old ++ node.value ++ rest) := by
          have parts : bsiz buffaddr - place = SIZEOF_rec_hdr + (bsiz buffaddr - (place + SIZEOF_rec_hdr)) := by omega
          rw [parts, ByteMemory.read_add, data]
        have header : IsHeader (buffaddr.read place SIZEOF_rec_hdr) (node.size old) old :=
          isHeader_read.mpr ⟨size, count⟩
        rw [fragments_cons, fragments_nil, assembled_cons, assembled_nil, List.append_nil, BlkSegment.fragment,
          width, Fragment.content, bytes, ← List.append_assoc, ← List.append_assoc]
        rw [← same, ← newIs] at header ⊢
        exact .cons wellFormed (by unfold MAX_KEY_SZ; exact short') between header more
    · -- the record gets bytes of the search key
      have base : min right.curr_rec.match_ left.prev_rec.match_ = new := by omega
      have header := @rec_hdr_isHeader (node.size new) new cmpc2 (by omega) (by omega)
      have sizes : ((node.size old : Nat) : Int) + (old - new : Nat) = (node.size new : Nat) := by omega
      have counts : old - (old - new) = new := by omega
      have keyBytes : g.gv_currkey.base.read new (old - new) = (node.key.drop new).take (old - new) := by
        have whole : g.gv_currkey.base.read new (old - new) = (g.gv_currkey.bytes.drop new).take (old - new) := by
          have width := g.gv_currkey.length_bytes
          rw [← keyFrom_eq (by omega)]
          unfold UpdateGlobals.keyFrom
          rw [← ByteMemory.read_take (by omega)]
        rw [whole]
        apply List.ext_getElem?
        intro i
        rw [List.getElem?_take, List.getElem?_take, List.getElem?_drop, List.getElem?_drop]
        by_cases less : i < old - new
        · rw [if_pos less, if_pos less, keyAgrees (new + i) (by omega)]
        · rw [if_neg less, if_neg less]
      have joined : (node.key.drop new).take (old - new) ++ node.key.drop old = node.key.drop new := by
        have behind : node.key.drop old = (node.key.drop new).drop (old - new) := by
          rw [List.drop_drop]
          congr 1
          omega
        rw [behind, List.take_append_drop]
      have width : ((bsiz buffaddr : Int) - (place + SIZEOF_rec_hdr : Nat)) =
          (bsiz buffaddr - (place + SIZEOF_rec_hdr) : Nat) := by omega
      rw [if_neg none, if_pos (by omega), if_pos none, if_neg (fun impossible => impossible rfl), base, sizes, counts,
        List.append_nil, width]
      refine ⟨_, rfl, ⟨.inr ⟨[rec_hdr (node.size new : Nat) new cmpc2, g.gv_currkey.base.read new (old - new)],
        place + SIZEOF_rec_hdr, bsiz buffaddr - (place + SIZEOF_rec_hdr), rfl, ?_⟩⟩, ?_⟩
      · have total : totalLen ([rec_hdr (node.size new : Nat) new cmpc2,
            g.gv_currkey.base.read new (old - new)].map Fragment.new) = SIZEOF_rec_hdr + (old - new) := by
          rw [List.map_cons, List.map_cons, List.map_nil, totalLen_cons, totalLen_cons, totalLen_nil, Nat.add_zero]
          congr 1
          exact ByteMemory.length_read
        rw [total]
        omega
      · have segments : fragments ([.array (rec_hdr (node.size new : Nat) new cmpc2)] ++
            [.array (g.gv_currkey.base.read new (old - new))] ++
            [.buffer (place + SIZEOF_rec_hdr) (bsiz buffaddr - (place + SIZEOF_rec_hdr) : Nat)]) =
            [.new (rec_hdr (node.size new : Nat) new cmpc2), .new (g.gv_currkey.base.read new (old - new)),
              .source (place + SIZEOF_rec_hdr) (bsiz buffaddr - (place + SIZEOF_rec_hdr))] := rfl
        have bytes : assembled buffaddr [.new (rec_hdr (node.size new : Nat) new cmpc2),
            .new (g.gv_currkey.base.read new (old - new)),
            .source (place + SIZEOF_rec_hdr) (bsiz buffaddr - (place + SIZEOF_rec_hdr))] =
            rec_hdr (node.size new : Nat) new cmpc2 ++ node.key.drop new ++ node.value ++ rest := by
          rw [assembled_cons, assembled_cons, assembled_cons, assembled_nil, List.append_nil]
          unfold Fragment.content
          dsimp only
          rw [data, keyBytes, ← List.append_assoc ((node.key.drop new).take (old - new)),
            ← List.append_assoc ((node.key.drop new).take (old - new)), joined, ← List.append_assoc,
            ← List.append_assoc]
        rw [segments, bytes]
        rw [← newIs] at header ⊢
        exact .cons wellFormed (by unfold MAX_KEY_SZ; exact short') between header more

/-- What a kill in a leaf comes to, when the nodes are to become `nodes'`. -/
inductive KillsTo (blk_size : Nat) (buffaddr : ByteMemory) (nodes nodes' : List Node) :
    Except UpdateError KillOutcome → Prop
  | normal (same : nodes' = nodes) : KillsTo blk_size buffaddr nodes nodes' (.ok .normal)
  | deleteParent (some : nodes ≠ []) (none : nodes' = []) : KillsTo blk_size buffaddr nodes nodes' (.ok .deleteParent)
  | write {array : UpdateArray} {first_copy : Bool} (some : nodes' ≠ [])
      (builds : ∀ cse ctn twin base_addr, cse.level = 0 → cse.forward_process = true →
        (first_copy = true → cse.first_copy = true) → (twin.isSome = true → cse.first_copy = true) →
        twin.getD base_addr = buffaddr → Leaf blk_size (gvcst_blk_build cse array ctn twin base_addr) nodes') :
      KillsTo blk_size buffaddr nodes nodes' (.ok (.write [] array first_copy))

/-- The record in front of the range ends where the range begins. -/
theorem SearchedLeaf.del_ptr (searched : SearchedLeaf buffaddr key left below above) :
    (if left.prev_rec.offset = 0 then SIZEOF_blk_hdr
      else left.prev_rec.offset + rsiz buffaddr left.prev_rec.offset) = left.curr_rec.offset := by
  have place := searched.front.length_eq
  have first := searched.first
  rw [ByteMemory.length_read] at place
  cases searched.prevRec with
  | inl none =>
    rw [if_pos none.2]
    rw [none.1] at place
    have empty : storedSize [] [] = 0 := rfl
    omega
  | inr some =>
    have above : SIZEOF_blk_hdr ≤ left.prev_rec.offset := some.2.1
    unfold SIZEOF_blk_hdr at above
    rw [if_neg (by omega)]
    exact some.2.2.2

/-- A kill in one leaf, every way it can go. -/
theorem gvcst_kill_blk_leaf {nodes : List Node} (leaf : Leaf g.blk_size buffaddr nodes)
    (range : KilledRange buffaddr do_subtree g.gv_currkey.bytes altkey q left right below removed above)
    (star_cmpc2 cmpc2 : UInt8) :
    KillsTo g.blk_size buffaddr (below ++ removed ++ above) (below ++ above)
      (gvcst_kill_blk g.blk_size buffaddr true 0 g.gv_currkey left.prev_rec right.curr_rec false star_cmpc2 cmpc2) := by
  obtain ⟨leftPlace, rightPlace, top⟩ := range.places
  have del := range.low.del_ptr
  have first := range.low.first
  have fits := leaf.fits
  have headerSize : SIZEOF_blk_hdr = 16 := rfl
  have front : left.prev_rec.offset < left.curr_rec.offset := by
    cases range.low.prevRec with
    | inl none =>
      rw [none.2]
      omega
    | inr some =>
      omega
  unfold gvcst_kill_blk
  dsimp only
  have right_ptr : (if false = true ∧ right.curr_rec.offset < bsiz buffaddr then
      right.curr_rec.offset + rsiz buffaddr right.curr_rec.offset else right.curr_rec.offset) =
      right.curr_rec.offset := if_neg fun impossible => Bool.false_ne_true impossible.1
  rw [right_ptr, del, if_neg (by omega), if_neg (by omega)]
  have aligned : ¬ (left.prev_rec.offset ≠ 0 ∧ (left.curr_rec.offset ≤ left.prev_rec.offset + SIZEOF_rec_hdr ∨
      left.curr_rec.offset > right.curr_rec.offset)) := by
    intro wrong
    rw [if_neg wrong.1] at del
    cases range.low.prevRec with
    | inl none => exact wrong.1 none.2
    | inr some =>
      omega
  cases removed with
  | nil =>
    have same : right.curr_rec.offset = left.curr_rec.offset := rightPlace
    rw [List.append_nil]
    split
    · exact .normal rfl
    · rename_i notEmpty
      have notWhole : ¬ ((left.prev_rec.offset = 0 ∧ right.curr_rec.offset = bsiz buffaddr) ∧ True) := by
        intro whole
        rw [if_pos whole.1.1] at del
        exact notEmpty ⟨whole.1, by omega⟩
      rw [if_neg (by simpa using notWhole), if_pos same.symm]
      exact .normal rfl
  | cons n removed =>
    have apart := @KilledRange.storedSize_pos (lastNode [] below) (n :: removed) (List.cons_ne_nil _ _)
    rw [if_neg (by omega)]
    by_cases whole : left.prev_rec.offset = 0 ∧ right.curr_rec.offset = bsiz buffaddr
    · -- nothing is left
      have noneBelow : below = [] := by
        cases range.low.prevRec with
        | inl none => exact none.1
        | inr some => exact absurd whole.1 (by omega)
      have noneAbove : above = [] := by
        by_contra some
        have more := @KilledRange.storedSize_pos (lastNode [] (below ++ n :: removed)) above some
        omega
      rw [if_pos ⟨whole, rfl⟩, noneBelow, noneAbove]
      exact .deleteParent (List.cons_ne_nil _ _) rfl
    · obtain ⟨back, made, rest, stored⟩ := backSegments_leaf leaf range (List.cons_ne_nil n removed)
        right.curr_rec.offset cmpc2
      have nodes' : Stored [] (buffaddr.read SIZEOF_blk_hdr (left.curr_rec.offset - SIZEOF_blk_hdr) ++
          assembled buffaddr (fragments back)) (below ++ above) := range.low.front.append stored
      have keeps := keeps_removal first rest nodes' left.prev_rec.offset right.curr_rec.offset star_cmpc2
      dsimp only at keeps
      have some : below ++ above ≠ [] := by
        intro empty
        apply whole
        obtain ⟨noneBelow, noneAbove⟩ := List.append_eq_nil_iff.mp empty
        constructor
        · cases range.low.prevRec with
          | inl none => exact none.2
          | inr some => exact absurd noneBelow some.1
        · rw [noneAbove] at top
          exact top.symm
      -- the new leaf is no longer than the old one
      have size : SIZEOF_blk_hdr + storedSize [] (below ++ above) ≤ bsiz buffaddr := by
        rw [storedSize_append]
        cases above with
        | nil =>
          have none : ∀ prev, storedSize prev [] = 0 := fun _ => rfl
          rw [none]
          omega
        | cons node others =>
          have room := (range.shared (List.cons_ne_nil _ _)).2.2.2
          have old : ∀ prev, storedSize prev (node :: others) =
              node.size (commonPrefix prev node.key) + storedSize node.key others := fun _ => rfl
          rw [old] at top ⊢
          unfold Node.size at top ⊢
          omega
      have remains : ¬ (SIZEOF_blk_hdr : Int) ≥
          (bsiz buffaddr : Int) + ((left.curr_rec.offset : Int) - right.curr_rec.offset) := by
        intro empty
        apply some
        have above' : above = [] := by
          by_contra more
          have bytes := @KilledRange.storedSize_pos (lastNode [] (below ++ n :: removed)) above more
          omega
        have below' : below = [] := by
          by_contra more
          have bytes := @KilledRange.storedSize_pos [] below more
          omega
        rw [above', below']
        rfl
      rw [if_neg (fun wrong => whole wrong.1), if_neg aligned, if_neg (by omega), if_neg (fun level => level rfl)]
      dsimp only
      rw [if_neg whole, if_neg remains, made]
      dsimp only
      have total : SIZEOF_blk_hdr + ((((frontSegments buffaddr 0 left.prev_rec.offset left.curr_rec.offset
          right.curr_rec.offset star_cmpc2).1 ++ back).map BlkSegment.len).sum) =
          ((SIZEOF_blk_hdr + storedSize [] (below ++ above) : Nat) : Int) := by
        rw [keeps.lens, keeps.total, Int.natCast_add]
      rw [BLK_FINI_eq total (by omega) (Nat.le_add_right _ _)]
      dsimp only
      apply KillsTo.write some
      intro cse ctn twin base_addr level forward copied twins source
      exact keeps.builds (by omega) leaf.small level forward copied twins source ctn

end Range

/-! ## The dummy value -/

section Dummy

variable {buffaddr : ByteMemory} {gv_currkey : KeyBuffer} {bh : SrchBlkStatus} {below above others : List Node}
variable {node : Node}

/-- The value of a record stands behind its key. -/
theorem HeadRecord.value {place c : Nat} {rest : List UInt8} (head : HeadRecord buffaddr place c node rest) :
    buffaddr.read (place + (SIZEOF_rec_hdr + (node.key.length - c))) node.value.length = node.value := by
  have data := head.data
  rw [List.append_assoc] at data
  obtain ⟨_, behind, _⟩ := read_eq_append data
  obtain ⟨here, _, _⟩ := read_eq_append behind
  rw [List.length_drop] at here
  rw [← Nat.add_assoc]
  exact here

/-- What the search says of a key that is there, and of one that is not. -/
theorem match_whole_iff (target : WellFormedTarget gv_currkey)
    (found : SearchedLeaf buffaddr gv_currkey.bytes bh below (node :: others)) :
    gv_currkey.end_ + 1 = bh.curr_rec.match_ ↔ node.key = gv_currkey.bytes := by
  have width := gv_currkey.length_bytes
  have whole := target.wellFormed.full_iff (found.back.grammar node List.mem_cons_self).1
  have curr : bh.curr_rec.match_ = commonPrefix gv_currkey.bytes node.key := found.curr
  rw [curr, ← width, eq_comm]
  exact whole

/-- A value of one zero byte is the dummy value. -/
theorem dummy_iff {place c : Nat} {rest : List UInt8} {offset : Int} (head : HeadRecord buffaddr place c node rest)
    (inside : c ≤ node.key.length) (offsetIs : offset = SIZEOF_rec_hdr + (node.key.length : Nat) - (c : Nat)) :
    IS_SN_DUMMY buffaddr (rsiz buffaddr place - offset) (place + offset).toNat = true ↔ node.value = [0] := by
  have value := HeadRecord.value head
  have size := head.rsiz
  unfold Node.size at size
  have length : ((rsiz buffaddr place : Nat) : Int) - offset = node.value.length := by omega
  have place' : (place + offset).toNat = place + (SIZEOF_rec_hdr + (node.key.length - c)) := by omega
  unfold IS_SN_DUMMY
  rw [length, place', decide_eq_true_iff]
  constructor
  · intro both
    obtain ⟨one, zero⟩ := both
    have single : node.value.length = 1 := by omega
    rw [single] at value
    have byte : buffaddr.read (place + (SIZEOF_rec_hdr + (node.key.length - c))) 1 = [0] := by
      rw [← zero]
      rfl
    exact value.symm.trans byte
  · intro dummy
    rw [dummy] at value ⊢
    have byte : [buffaddr (place + (SIZEOF_rec_hdr + (node.key.length - c)))] = [0] := value
    exact ⟨rfl, List.head_eq_of_cons_eq byte⟩

/-- The search has found the dummy value exactly when the leaf holds the key with it. -/
theorem foundDummy_iff (target : WellFormedTarget gv_currkey)
    (found : SearchedLeaf buffaddr gv_currkey.bytes bh below above) :
    foundDummy buffaddr gv_currkey bh = true ↔ ⟨gv_currkey.bytes, [0]⟩ ∈ below ++ above := by
  have width := gv_currkey.length_bytes
  have notBelow : ⟨gv_currkey.bytes, [0]⟩ ∉ below := fun member => List.lt_irrefl _ (found.less _ member)
  have here : ⟨gv_currkey.bytes, [0]⟩ ∈ below ++ above ↔ ⟨gv_currkey.bytes, [0]⟩ ∈ above := by
    rw [List.mem_append]
    exact ⟨fun either => either.resolve_left notBelow, .inr⟩
  unfold foundDummy
  dsimp only
  rw [decide_eq_true_iff, here]
  cases above with
  | nil =>
    have zero : bh.curr_rec.match_ = 0 := found.curr
    refine iff_of_false (fun both => ?_) List.not_mem_nil
    omega
  | cons node others =>
    have behind : ⟨gv_currkey.bytes, [0]⟩ ∉ others := by
      intro member
      have sorted := (List.pairwise_cons.mp found.back.sorted).1 _ member
      exact found.notLess node List.mem_cons_self sorted
    obtain ⟨rest, head, _⟩ := found.head
    rw [match_whole_iff target found, List.mem_cons, or_iff_left behind]
    by_cases same : node.key = gv_currkey.bytes
    · have grows := found.back.lt_all node List.mem_cons_self
      have inside := commonPrefix_le node.key (lastNode [] below)
      rw [commonPrefix_comm grows] at inside
      have count := head.cmpc
      have dummy := @dummy_iff buffaddr node _ _ rest (SIZEOF_rec_hdr + ((gv_currkey.end_ + 1 : Nat) : Int) -
        (EVAL_CMPC buffaddr bh.curr_rec.offset : Nat)) head inside (by rw [count, same, width])
      rw [dummy]
      constructor
      · intro both
        rw [← same, ← both.2]
      · intro equal
        exact ⟨same, (congrArg Node.value equal).symm⟩
    · refine iff_of_false (fun both => same both.1) fun equal => same (congrArg Node.key equal).symm

end Dummy

section Kill

variable {buffaddr : ByteMemory} {g : UpdateGlobals}

/-- What KILL and ZKILL come to in a leaf. A ZKILL of a node that may span, for a caller that wants to know, does
nothing yet. Otherwise the nodes are removed. -/
def KillsNodes (g : UpdateGlobals) (buffaddr : ByteMemory) (nodes : List Node) (do_subtree span_status sn_disallowed : Bool)
    (outcome : Except UpdateError KillOutcome) : Prop :=
  if do_subtree = false ∧ ⟨g.gv_currkey.bytes, [0]⟩ ∈ nodes ∧ span_status = true ∧ sn_disallowed = false then
    outcome = .ok .spanning
  else KillsTo g.blk_size buffaddr nodes (killNodes do_subtree g.gv_currkey.bytes nodes) outcome

/-- **KILL and ZKILL in a well-formed leaf.** The block that is built is a well-formed leaf that holds the nodes which
do not begin with the killed key. The parent loses the block when no node is left, and nothing is done when there
is nothing to kill, or when a spanning node is left to the caller. -/
theorem gvcst_kill2_leaf_removes {nodes : List Node} (leaf : Leaf g.blk_size buffaddr nodes)
    (target : WellFormedTarget g.gv_currkey) (hidden : g.gv_currkey.end_ + 3 ≤ MAX_KEY_SZ)
    (room : MAX_KEY_SZ ≤ g.gv_altkey.top) (do_subtree span_status sn_disallowed : Bool) :
    KillsNodes g buffaddr nodes do_subtree span_status sn_disallowed
      (gvcst_kill2_leaf g do_subtree span_status false sn_disallowed buffaddr) := by
  obtain ⟨target', q, ends⟩ := @killAltKey_ends g.gv_currkey g.gv_altkey do_subtree target hidden
  have room' : MAX_KEY_SZ ≤ (killAltKey do_subtree g.gv_currkey g.gv_altkey).top := by
    cases do_subtree <;> exact room
  obtain ⟨left, _, below, above, leftResult, same, low⟩ := gvcst_search_blk_leaf leaf target room false
  obtain ⟨right, _, below', above', rightResult, same', high⟩ := gvcst_search_blk_leaf leaf target' room' false
  have order : g.gv_currkey.bytes < (killAltKey do_subtree g.gv_currkey g.gv_altkey).bytes := by
    have less : ∀ rest, q ++ KEY_DELIMITER :: rest < q ++ [1, KEY_DELIMITER, KEY_DELIMITER] := fun rest =>
      append_lt_append (List.cons_lt_cons_iff.mpr (.inl (by decide)))
    rw [ends.behind]
    cases ends.first with
    | inl equal => exact equal ▸ less []
    | inr equal => exact equal ▸ less [KEY_DELIMITER]
  obtain ⟨removed, rfl, rfl⟩ := range_between low high order (same.symm.trans same')
  have range : KilledRange buffaddr do_subtree g.gv_currkey.bytes
      (killAltKey do_subtree g.gv_currkey g.gv_altkey).bytes q left right below removed above' :=
    ⟨target.wellFormed, ends, low, high⟩
  have dummy := foundDummy_iff target low
  rw [← same] at dummy
  unfold gvcst_kill2_leaf KillsNodes
  rw [leftResult]
  dsimp only
  by_cases spans : do_subtree = false ∧ ⟨g.gv_currkey.bytes, [0]⟩ ∈ nodes ∧ span_status = true ∧ sn_disallowed = false
  · obtain ⟨single, there, wanted, allowed⟩ := spans
    subst single wanted allowed
    rw [if_pos ⟨rfl, there, rfl, rfl⟩, dummy.mpr there]
    rfl
  · have goesOn : ¬ (!do_subtree && foundDummy buffaddr g.gv_currkey left && span_status && !sn_disallowed) = true := by
      intro all
      simp only [Bool.and_eq_true, Bool.not_eq_true', dummy] at all
      exact spans ⟨all.1.1.1, all.1.1.2, all.1.2, all.2⟩
    rw [if_neg spans, if_neg goesOn, Bool.and_false, if_neg Bool.false_ne_true, rightResult]
    dsimp only
    rw [same', range.killNodes_eq]
    exact gvcst_kill_blk_leaf leaf range g.cmpc2 g.next_cmpc2

end Kill

/-- The first of two nodes is removed. -/
theorem gvcst_kill2_leaf_removes_first :
    KillsNodes (smallGlobals [0x61, 0, 0]) smallLeaf smallNodes false true false
      (gvcst_kill2_leaf (smallGlobals [0x61, 0, 0]) false true false false smallLeaf) := by
  have key : (smallGlobals [0x61, 0, 0]).gv_currkey.bytes = [0x61, 0, 0] := by decide
  exact gvcst_kill2_leaf_removes smallLeaf_holds ⟨key ▸ smallNodes_grammar.1, by decide⟩ (by decide) (by decide)
    false true false

end Ydb.BlockUpdate
