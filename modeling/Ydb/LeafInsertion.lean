import Ydb.LeafSearch
import Ydb.IncrementRecomputation

/-!
# Setting a node of a leaf

A new record goes in front of the first key above its own. This record then shares at least as much with the
new key as it shared with the one before, so that its compression count may grow and its size shrink. A record
that is there gets the new value. Either way the block holds the nodes with the key set to the value.
-/

namespace Ydb.BlockUpdate

open Lib

/-! ## Nodes -/

/-- The nodes after the key `t` has been set. -/
def setNode (t value : List UInt8) (nodes : List Node) : List Node :=
  nodes.filter (fun n => n.key < t) ++ ⟨t, value⟩ :: nodes.filter fun n => t < n.key

/-- The number of bytes of the records. -/
def storedSize (prev : List UInt8) : List Node → Nat
  | [] => 0
  | node :: nodes => node.size (commonPrefix prev node.key) + storedSize node.key nodes

section Nodes

variable {prev bytes t value : List UInt8} {node : Node} {nodes below above : List Node}

/-- A new node stands between its neighbours. -/
theorem setNode_between (less : ∀ n ∈ below, n.key < t) (greater : ∀ n ∈ above, t < n.key) :
    setNode t value (below ++ above) = below ++ ⟨t, value⟩ :: above := by
  have first : below.filter (fun n => n.key < t) = below := List.filter_eq_self.mpr (by simpa using less)
  have second : above.filter (fun n => t < n.key) = above := List.filter_eq_self.mpr (by simpa using greater)
  have none : above.filter (fun n => n.key < t) = [] := by
    apply List.filter_eq_nil_iff.mpr
    intro n member
    simpa using List.le_of_lt (greater n member)
  have none' : below.filter (fun n => t < n.key) = [] := by
    apply List.filter_eq_nil_iff.mpr
    intro n member
    simpa using List.le_of_lt (less n member)
  unfold setNode
  rw [List.filter_append, List.filter_append, first, second, none, none', List.append_nil, List.nil_append]

/-- A new value stands where the old one did. -/
theorem setNode_here (less : ∀ n ∈ below, n.key < t) (here : node.key = t) (greater : ∀ n ∈ above, t < n.key) :
    setNode t value (below ++ node :: above) = below ++ ⟨t, value⟩ :: above := by
  rw [← setNode_between less greater]
  unfold setNode
  rw [List.filter_append, List.filter_append, List.filter_append, List.filter_append,
    List.filter_cons_of_neg (by simp [here]),
    List.filter_cons_of_neg (by simp [here])]

/-- The bytes of records are as many as their size. -/
theorem Stored.length_eq (stored : Stored prev bytes nodes) : bytes.length = storedSize prev nodes := by
  induction stored with
  | nil => rfl
  | cons _ _ _ header _ ih =>
    rw [List.length_append, List.length_append, List.length_append, header.length, List.length_drop,
      ih]
    rfl

end Nodes

/-! ## Segments -/

/-- Segments from which a leaf with the given nodes is built in place. -/
structure Writes (buffaddr : ByteMemory) (segments : List BlkSegment) (nodes : List Node) : Prop where
  stored : Stored [] (assembled buffaddr (fragments segments)) nodes
  sources : ∀ f ∈ fragments segments, f.StartsFrom SIZEOF_blk_hdr
  inPlace : ∃ n : Nat, ∃ rest, segments = .buffer SIZEOF_blk_hdr n :: rest
  clear : ClearBackward (fragments segments).reverse (SIZEOF_blk_hdr + totalLen (fragments segments))
  lens : (segments.map BlkSegment.len).sum = (totalLen (fragments segments) : Nat)

section Segments

variable {buffaddr : ByteMemory} {segments back : List BlkSegment} {nodes : List Node}

/-- The segments are as long as what they write. -/
theorem Writes.total (writes : Writes buffaddr segments nodes) :
    totalLen (fragments segments) = storedSize [] nodes := by
  rw [← length_assembled, writes.stored.length_eq]

/-- Segments that can be moved build a leaf. -/
theorem Writes.builds (writes : Writes buffaddr segments nodes) {blk_size : Nat}
    (fits : SIZEOF_blk_hdr + storedSize [] nodes ≤ blk_size) (small : blk_size ≤ MAX_DB_BLK_SIZE)
    {cse : CwSetElement} (level : cse.level = 0) (backward : cse.forward_process = false) {twin : Twin}
    {base_addr : ByteMemory} (copied : twin.isSome = true → cse.first_copy = true)
    (source : twin.getD base_addr = buffaddr) (ctn : Nat) :
    Leaf blk_size (gvcst_blk_build cse ⟨SIZEOF_blk_hdr + storedSize [] nodes, segments⟩ ctn twin base_addr)
      nodes := by
  have limit : SIZEOF_blk_hdr + storedSize [] nodes < 2 ^ 32 := by
    unfold MAX_DB_BLK_SIZE at small
    omega
  have built := @gvcst_blk_build_built twin base_addr cse ⟨SIZEOF_blk_hdr + storedSize [] nodes, segments⟩ ctn
    (by dsimp only; rw [writes.total]) limit (by omega) writes.sources (by
      intro first
      refine ⟨?_, writes.inPlace⟩
      cases twin with
      | none => rfl
      | some old =>
        rw [copied rfl] at first
        cases first) (by
      intro _
      unfold ClearBuild
      have clear := writes.clear
      rw [writes.total] at clear
      rw [if_neg (by rw [backward]; exact Bool.false_ne_true)]
      exact clear)
  rw [source, level] at built
  exact built.leaf writes.stored (Nat.le_add_right _ _) fits small

theorem clearBackward_concat {front : List Fragment} {last : Fragment} {b ptr : Nat}
    (ends : ∀ f ∈ front ++ [last], f.EndsBy b) (room : b + totalLen front ≤ ptr) :
    ClearBackward (front ++ [last]) ptr := by
  induction front generalizing ptr with
  | nil => exact ⟨fun f member => absurd member List.not_mem_nil, trivial⟩
  | cons fragment front ih =>
    rw [totalLen_cons] at room
    refine ⟨?_, ih (fun f member => ends f (List.mem_cons_of_mem _ member)) (by omega)⟩
    intro f member
    have early := ends f (List.mem_cons_of_mem _ member)
    cases f with
    | source addr len => exact Nat.le_trans early (by omega)
    | new bytes => exact trivial

/-- A fragment that ends last is moved first. -/
theorem clearBackward_cons {last : Fragment} {others : List Fragment} {ptr b : Nat}
    (ends : ∀ f ∈ others, f.EndsBy b) (room : b ≤ ptr - last.len) (clear : ClearBackward others (ptr - last.len)) :
    ClearBackward (last :: others) ptr := by
  refine ⟨?_, clear⟩
  intro f member
  have early := ends f member
  cases f with
  | source addr len => exact Nat.le_trans early room
  | new bytes => exact trivial

/-- The segments of an edit: what stands in front of a place, new bytes, and what stands behind another. -/
def editSegments (place : Nat) (news : List (List UInt8)) (back : List BlkSegment) : List BlkSegment :=
  .buffer SIZEOF_blk_hdr (place - SIZEOF_blk_hdr) :: (news.map .array ++ back)

theorem fragments_news (news : List (List UInt8)) :
    fragments (news.map .array) = news.map .new := by
  unfold fragments
  rw [List.map_map]
  rfl

theorem assembled_news (news : List (List UInt8)) : assembled buffaddr (news.map .new) = news.flatten := by
  induction news with
  | nil => rfl
  | cons bytes news ih =>
    rw [List.map_cons, assembled_cons, ih, List.flatten_cons]
    rfl

theorem fragments_edit {place : Nat} (first : SIZEOF_blk_hdr ≤ place) (news : List (List UInt8)) :
    fragments (editSegments place news back) =
      .source SIZEOF_blk_hdr (place - SIZEOF_blk_hdr) :: (news.map .new ++ fragments back) := by
  have width : ((place : Int) - SIZEOF_blk_hdr).toNat = place - SIZEOF_blk_hdr := by omega
  unfold editSegments
  rw [fragments_cons, fragments_append, fragments_news, BlkSegment.fragment, width]

theorem sum_news (news : List (List UInt8)) :
    ((news.map BlkSegment.array).map BlkSegment.len).sum = (totalLen (news.map .new) : Nat) := by
  induction news with
  | nil => rfl
  | cons bytes news ih =>
    rw [List.map_cons, List.map_cons, List.sum_cons, List.map_cons, totalLen_cons, Int.natCast_add,
      ih]
    rfl

/-- An edit can be moved from the back. -/
theorem writes_edit {place : Nat} {news : List (List UInt8)} (first : SIZEOF_blk_hdr ≤ place)
    (backs : back = [] ∨ ∃ addr len : Nat, back = [.buffer addr len] ∧ SIZEOF_blk_hdr ≤ addr)
    (stored : Stored [] (buffaddr.read SIZEOF_blk_hdr (place - SIZEOF_blk_hdr) ++ (news.flatten ++
      assembled buffaddr (fragments back))) nodes) : Writes buffaddr (editSegments place news back) nodes := by
  have width : ((place - SIZEOF_blk_hdr : Nat) : Int) = place - SIZEOF_blk_hdr := by omega
  have endsFront : ∀ f ∈ (news.map Fragment.new).reverse ++
      [Fragment.source SIZEOF_blk_hdr (place - SIZEOF_blk_hdr)], f.EndsBy place := by
    intro f member
    cases List.mem_append.mp member with
    | inl new =>
      obtain ⟨bytes, _, rfl⟩ := List.mem_map.mp (List.mem_reverse.mp new)
      exact trivial
    | inr front =>
      rw [List.mem_singleton.mp front]
      exact Nat.le_of_eq (Nat.add_sub_cancel' first)
  have clearFront : ∀ ptr, place + totalLen (news.map Fragment.new) ≤ ptr →
      ClearBackward ((news.map Fragment.new).reverse ++
        [Fragment.source SIZEOF_blk_hdr (place - SIZEOF_blk_hdr)]) ptr := by
    intro ptr room
    apply clearBackward_concat endsFront
    rw [totalLen_reverse]
    exact room
  have widthFront : (Fragment.source SIZEOF_blk_hdr (place - SIZEOF_blk_hdr)).len = place - SIZEOF_blk_hdr := rfl
  refine ⟨?_, ?_, ⟨place - SIZEOF_blk_hdr, news.map .array ++ back, ?_⟩, ?_, ?_⟩
  · rw [fragments_edit first, assembled_cons, assembled_append, assembled_news]
    exact stored
  · rw [fragments_edit first]
    intro f member
    cases List.mem_cons.mp member with
    | inl front =>
      subst front
      exact Nat.le_refl _
    | inr behind =>
      cases List.mem_append.mp behind with
      | inl new =>
        obtain ⟨bytes, _, rfl⟩ := List.mem_map.mp new
        exact trivial
      | inr last =>
        cases backs with
        | inl none =>
          subst none
          exact absurd last List.not_mem_nil
        | inr some =>
          obtain ⟨addr, len, rfl, above⟩ := some
          rw [List.mem_singleton.mp last]
          exact above
  · unfold editSegments
    rw [width]
  · rw [fragments_edit first, totalLen_cons, totalLen_append, widthFront]
    cases backs with
    | inl none =>
      subst none
      rw [fragments_nil, List.append_nil, List.reverse_cons]
      exact clearFront _ (by omega)
    | inr some =>
      obtain ⟨addr, len, rfl, _⟩ := some
      have widthBack : (BlkSegment.buffer addr len).fragment.len = len := Int.toNat_natCast len
      rw [fragments_cons, fragments_nil, totalLen_cons, totalLen_nil, widthBack, List.reverse_cons,
        List.reverse_append, List.reverse_singleton, List.append_assoc]
      apply clearBackward_cons endsFront
      · rw [widthBack]
        omega
      · rw [widthBack]
        exact clearFront _ (by omega)
  · rw [fragments_edit first, totalLen_cons, totalLen_append, widthFront, Int.natCast_add, Int.natCast_add, width]
    unfold editSegments
    rw [List.map_cons, List.sum_cons, List.map_append, List.sum_append, sum_news]
    cases backs with
    | inl none =>
      subst none
      rfl
    | inr some =>
      obtain ⟨addr, len, rfl, _⟩ := some
      rfl

end Segments

/-! ## The record that the search has found -/

/-- The first record that is not below the target, and what stands behind it. -/
structure HeadRecord (buffaddr : ByteMemory) (place : Nat) (c : Nat) (node : Node) (rest : List UInt8) : Prop where
  cmpc : EVAL_CMPC buffaddr place = c
  rsiz : rsiz buffaddr place = node.size c
  upto : place + node.size c ≤ bsiz buffaddr
  data : buffaddr.read (place + SIZEOF_rec_hdr) (bsiz buffaddr - (place + SIZEOF_rec_hdr)) =
    node.key.drop c ++ node.value ++ rest
  rest : buffaddr.read (place + node.size c) (bsiz buffaddr - (place + node.size c)) = rest

section Found

variable {buffaddr : ByteMemory} {t : List UInt8} {bh : SrchBlkStatus} {below above : List Node} {node : Node}

/-- The record found, byte by byte. -/
theorem SearchedLeaf.head (searched : SearchedLeaf buffaddr t bh below (node :: above)) :
    ∃ rest, HeadRecord buffaddr bh.curr_rec.offset (commonPrefix (lastNode [] below) node.key) node rest ∧
      Stored node.key rest above := by
  have back := searched.back
  generalize reads : buffaddr.read bh.curr_rec.offset (bsiz buffaddr - bh.curr_rec.offset) = bytes at back
  cases back with
  | @cons _ hdr rest _ _ wellFormed short order header more =>
    rw [List.append_assoc, List.append_assoc] at reads
    obtain ⟨top, behind, _⟩ := read_eq_append reads
    rw [header.length] at top behind
    rw [← top] at header
    obtain ⟨size, cmpc⟩ := isHeader_read.mp header
    have within : bsiz buffaddr - bh.curr_rec.offset - SIZEOF_rec_hdr =
        bsiz buffaddr - (bh.curr_rec.offset + SIZEOF_rec_hdr) := by omega
    rw [within] at behind
    rw [← List.append_assoc] at behind
    obtain ⟨_, last, upto⟩ := read_eq_append behind
    have width : (node.key.drop (commonPrefix (lastNode [] below) node.key) ++ node.value).length +
        SIZEOF_rec_hdr = node.size (commonPrefix (lastNode [] below) node.key) := by
      rw [List.length_append, List.length_drop]
      unfold Node.size
      omega
    have shared := (partsAt_commonPrefix order).length_right
    have lens := congrArg List.length behind
    rw [ByteMemory.length_read, List.length_append, List.length_append, List.length_drop] at lens
    refine ⟨rest, ⟨cmpc, size, ?_, behind, ?_⟩, more⟩
    · omega
    · rw [← last]
      congr 1 <;> omega

/-- The value of the record is read behind its key. -/
theorem HeadRecord.same_value {place c : Nat} {rest value : List UInt8}
    (head : HeadRecord buffaddr place c node rest) (length : value.length = node.value.length)
    (read : buffaddr.read (place + (SIZEOF_rec_hdr + (node.key.length - c))) value.length = value) :
    value = node.value := by
  have data := head.data
  rw [List.append_assoc] at data
  obtain ⟨_, behind, _⟩ := read_eq_append data
  obtain ⟨here, _, _⟩ := read_eq_append behind
  rw [List.length_drop] at here
  rw [length, ← Nat.add_assoc, here] at read
  exact read.symm

/-- What a key shares with the next one is at least what the last key shares with it. -/
theorem shared_le (searched : SearchedLeaf buffaddr t bh below (node :: above)) (greater : t < node.key) :
    commonPrefix (lastNode [] below) node.key ≤ commonPrefix t node.key := by
  cases List.eq_nil_or_concat below with
  | inl empty =>
    subst empty
    exact Nat.zero_le _
  | inr parts =>
    obtain ⟨front, n, rfl⟩ := parts
    have last : lastNode [] (front.concat n) = n.key := by
      unfold lastNode
      rw [List.concat_eq_append, List.getLast?_append]
      rfl
    have less := searched.less n (by rw [List.concat_eq_append]; exact List.mem_append_right _ List.mem_cons_self)
    rw [last, commonPrefix_between less greater]
    exact Nat.min_le_right _ _

end Found

/-! ## The segments of `gvcst_put2` -/

section Put

variable {g : UpdateGlobals} {buffaddr : ByteMemory} {bh : SrchBlkStatus} {below above : List Node} {node : Node}
variable {value : List UInt8}

/-- The bytes of the key that are not shared. -/
theorem keyFrom_eq {m : Nat} (inside : m ≤ g.gv_currkey.end_ + 1) :
    g.keyFrom m = g.gv_currkey.bytes.drop m := by
  have dropped := ByteMemory.read_drop g.gv_currkey.base 0 inside
  rw [Nat.zero_add] at dropped
  exact dropped

/-- An empty value has no segment. -/
def valueNews (value : List UInt8) : List (List UInt8) := if value.length ≠ 0 then [value] else []

theorem flatten_valueNews : (valueNews value).flatten = value := by
  unfold valueNews
  cases value with
  | nil => rfl
  | cons x value => exact List.append_nil _

theorem map_valueNews :
    (valueNews value).map BlkSegment.array = if value.length ≠ 0 then [.array value] else [] := by
  unfold valueNews
  split <;> rfl

theorem lastNode_le (searched : SearchedLeaf buffaddr g.gv_currkey.bytes bh below above) :
    bh.prev_rec.match_ ≤ g.gv_currkey.end_ + 1 := by
  rw [searched.prev]
  exact Nat.le_trans (commonPrefix_le _ _) (Nat.le_of_eq ByteMemory.length_read)

/-- The node in front is below the key. -/
theorem lastNode_lt_target (searched : SearchedLeaf buffaddr g.gv_currkey.bytes bh below above)
    (target : WellFormedTarget g.gv_currkey) : lastNode [] below < g.gv_currkey.bytes := by
  unfold lastNode
  cases last : below.getLast? with
  | none =>
    have long := target.wellFormed.length_ge
    cases keys : g.gv_currkey.bytes with
    | nil =>
      rw [keys] at long
      exact absurd long (by decide)
    | cons x rest => exact List.nil_lt_cons x rest
  | some n => exact searched.less n (List.mem_of_getLast? last)

/-- The count of the new record is the same from both sides. -/
theorem prev_match_eq (searched : SearchedLeaf buffaddr g.gv_currkey.bytes bh below above)
    (target : WellFormedTarget g.gv_currkey) :
    bh.prev_rec.match_ = commonPrefix (lastNode [] below) g.gv_currkey.bytes := by
  obtain ⟨left, right⟩ := (partsAt_commonPrefix (lastNode_lt_target searched target)).commonPrefix_eq
  rw [searched.prev, right]

/-- The bytes in front of the found record, the record of the key with its value, and the rest. -/
theorem stored_set (searched : SearchedLeaf buffaddr g.gv_currkey.bytes bh below above)
    (target : WellFormedTarget g.gv_currkey) {cmpc2 : UInt8} {others : List Node} {rest : List UInt8}
    (small : SIZEOF_rec_hdr + (g.gv_currkey.end_ + 1) + value.length < 2 ^ 16)
    (behind : Stored g.gv_currkey.bytes rest others) {size : Int}
    (sized : size = SIZEOF_rec_hdr + ((g.gv_currkey.end_ + 1 : Nat) - bh.prev_rec.match_ : Int) + value.length) :
    Stored [] (buffaddr.read SIZEOF_blk_hdr (bh.curr_rec.offset - SIZEOF_blk_hdr) ++
      (rec_hdr size bh.prev_rec.match_ cmpc2 ++ g.keyFrom bh.prev_rec.match_ ++ value ++ rest))
      (below ++ ⟨g.gv_currkey.bytes, value⟩ :: others) := by
  have width := g.gv_currkey.length_bytes
  have inside := lastNode_le searched
  have short := target.short
  unfold MAX_KEY_SZ at short
  have count := prev_match_eq searched target
  have three := shared_add_three target.wellFormed (lastNode_grammar searched.front)
    (lastNode_lt_target searched target)
  have sizes : size = ((Node.mk g.gv_currkey.bytes value).size bh.prev_rec.match_ : Nat) := by
    unfold Node.size
    dsimp only
    rw [width]
    omega
  have header := @rec_hdr_isHeader ((Node.mk g.gv_currkey.bytes value).size bh.prev_rec.match_)
    bh.prev_rec.match_ cmpc2 (by
      unfold Node.size
      dsimp only
      rw [width]
      omega) (by omega)
  rw [sizes, keyFrom_eq inside]
  apply searched.front.append
  rw [count] at header ⊢
  exact .cons target.wellFormed target.short (lastNode_lt_target searched target) header behind

/-- The size of a leaf with the new record. -/
theorem length_stored_set {news rest : List UInt8} {nodes : List Node} {new_rec_size : Int} {cmpc2 : UInt8}
    (searched : SearchedLeaf buffaddr g.gv_currkey.bytes bh below above)
    (stored : Stored [] (buffaddr.read SIZEOF_blk_hdr (bh.curr_rec.offset - SIZEOF_blk_hdr) ++
      (rec_hdr new_rec_size bh.prev_rec.match_ cmpc2 ++ g.keyFrom bh.prev_rec.match_ ++ news ++ rest)) nodes) :
    bh.curr_rec.offset - SIZEOF_blk_hdr + (SIZEOF_rec_hdr + (g.gv_currkey.end_ + 1 - bh.prev_rec.match_) +
      news.length + rest.length) = storedSize [] nodes := by
  have width := g.gv_currkey.length_bytes
  have lens := stored.length_eq
  rw [List.length_append, ByteMemory.length_read, List.length_append, List.length_append, List.length_append,
    length_rec_hdr, keyFrom_eq (lastNode_le searched), List.length_drop, width] at lens
  exact lens

/-- The new record, piece by piece. -/
def recordNews (g : UpdateGlobals) (bh : SrchBlkStatus) (new_rec_size : Int) (value : List UInt8) :
    List (List UInt8) :=
  [rec_hdr new_rec_size bh.prev_rec.match_ g.cmpc2, g.keyFrom bh.prev_rec.match_] ++ valueNews value

theorem flatten_recordNews (new_rec_size : Int) : (recordNews g bh new_rec_size value).flatten =
    rec_hdr new_rec_size bh.prev_rec.match_ g.cmpc2 ++ g.keyFrom bh.prev_rec.match_ ++ value := by
  unfold recordNews
  rw [List.flatten_append, flatten_valueNews, List.flatten_cons, List.flatten_singleton]

/-- The segments for a key that is not there. -/
theorem placeSegments_new (searched : SearchedLeaf buffaddr g.gv_currkey.bytes bh below above)
    (target : WellFormedTarget g.gv_currkey) (greater : ∀ n ∈ above, g.gv_currkey.bytes < n.key)
    (small : SIZEOF_rec_hdr + (g.gv_currkey.end_ + 1) + value.length < 2 ^ 16) {rec_size : Nat}
    {new_rec_size next_rec_shrink : Int}
    (recSize : rec_size = if bh.curr_rec.offset = bsiz buffaddr then 0 else rsiz buffaddr bh.curr_rec.offset)
    (sized : new_rec_size =
      SIZEOF_rec_hdr + ((g.gv_currkey.end_ + 1 : Nat) - bh.prev_rec.match_ : Int) + value.length)
    (shrink : next_rec_shrink = if bsiz buffaddr ≤ bh.curr_rec.offset then 0
      else (bh.curr_rec.match_ : Int) -
        (if bh.curr_rec.offset = bsiz buffaddr then 0 else EVAL_CMPC buffaddr bh.curr_rec.offset : Nat)) :
    ∃ segments, placeSegments g bh (bsiz buffaddr) value true rec_size new_rec_size next_rec_shrink =
        .ok segments ∧
      Writes buffaddr segments (below ++ ⟨g.gv_currkey.bytes, value⟩ :: above) ∧
      (bsiz buffaddr : Int) + (new_rec_size - next_rec_shrink) =
        (SIZEOF_blk_hdr + storedSize [] (below ++ ⟨g.gv_currkey.bytes, value⟩ :: above) : Nat) := by
  have first := searched.first
  have inside := lastNode_le searched
  cases above with
  | nil =>
    -- the key is behind all others
    have top : bh.curr_rec.offset = bsiz buffaddr := by
      have back := searched.back.length_eq
      rw [ByteMemory.length_read] at back
      have last := searched.last
      have none : storedSize (lastNode [] below) [] = 0 := rfl
      omega
    have stored := @stored_set g buffaddr bh below [] value searched target g.cmpc2 [] [] small .nil new_rec_size sized
    have lens := length_stored_set searched stored
    rw [List.append_nil] at stored
    rw [List.length_nil] at lens
    refine ⟨editSegments bh.curr_rec.offset (recordNews g bh new_rec_size value) [], ?_, ?_, ?_⟩
    · unfold placeSegments editSegments recordNews
      dsimp only
      rw [if_pos rfl, if_neg (by omega), List.map_append, map_valueNews, List.append_nil]
      rfl
    · apply writes_edit first (.inl rfl)
      rw [flatten_recordNews, fragments_nil, assembled_nil, List.append_nil]
      exact stored
    · rw [shrink, if_pos (by omega), sized]
      omega
  | cons node above =>
    -- the next record loses what it shares with the new key
    obtain ⟨rest, head, more⟩ := searched.head
    have less := greater node List.mem_cons_self
    have shared := shared_le searched less
    have parts := partsAt_commonPrefix less
    have longer := parts.length_right
    have found : bh.curr_rec.match_ = commonPrefix g.gv_currkey.bytes node.key := searched.curr
    obtain ⟨wellFormed, short⟩ := searched.back.grammar node List.mem_cons_self
    unfold MAX_KEY_SZ at short
    have three := shared_add_three wellFormed (.inr target.wellFormed) less
    rw [← found] at three
    have upto := head.upto
    have size := head.rsiz
    have count := head.cmpc
    have data := head.data
    rw [← found] at shared longer
    generalize commonPrefix (lastNode [] below) node.key = c at *
    have sizeEq : node.size c = SIZEOF_rec_hdr + (node.key.length - c) + node.value.length := rfl
    have newSizeEq : node.size bh.curr_rec.match_ =
        SIZEOF_rec_hdr + (node.key.length - bh.curr_rec.match_) + node.value.length := rfl
    have notTop : bh.curr_rec.offset ≠ bsiz buffaddr := by
      unfold SIZEOF_rec_hdr at sizeEq
      omega
    have sizeBound : node.size c < 2 ^ 16 := by
      have low := (buffaddr bh.curr_rec.offset).toNat_lt
      have high := (buffaddr (bh.curr_rec.offset + 1)).toNat_lt
      unfold rsiz at size
      omega
    rw [if_neg notTop] at recSize
    rw [if_neg (by omega), if_neg notTop, count] at shrink
    obtain ⟨d, grown⟩ := Nat.exists_eq_add_of_le shared
    have resized : (rec_size : Int) - next_rec_shrink = (node.size bh.curr_rec.match_ : Nat) := by omega
    have header := @rec_hdr_isHeader (node.size bh.curr_rec.match_) bh.curr_rec.match_ g.next_cmpc2 (by omega)
      (by omega)
    -- the tail of the block, from behind the bytes that the next record loses
    have tail : buffaddr.read (bh.curr_rec.offset + (d + SIZEOF_rec_hdr))
        (bsiz buffaddr - (bh.curr_rec.offset + (d + SIZEOF_rec_hdr))) =
          node.key.drop bh.curr_rec.match_ ++ node.value ++ rest := by
      have dropped := ByteMemory.read_drop buffaddr (bh.curr_rec.offset + SIZEOF_rec_hdr)
        (by omega : d ≤ bsiz buffaddr - (bh.curr_rec.offset + SIZEOF_rec_hdr))
      have place : bh.curr_rec.offset + SIZEOF_rec_hdr + d = bh.curr_rec.offset + (d + SIZEOF_rec_hdr) := by omega
      have within : bsiz buffaddr - (bh.curr_rec.offset + SIZEOF_rec_hdr) - d =
          bsiz buffaddr - (bh.curr_rec.offset + (d + SIZEOF_rec_hdr)) := by omega
      rw [data, place, within, List.append_assoc, List.drop_append_of_le_length (by rw [List.length_drop]; omega),
        List.drop_drop, ← grown, ← List.append_assoc] at dropped
      exact dropped
    have behind : Stored g.gv_currkey.bytes (rec_hdr (rec_size - next_rec_shrink) bh.curr_rec.match_ g.next_cmpc2 ++
        buffaddr.read (bh.curr_rec.offset + (d + SIZEOF_rec_hdr))
          (bsiz buffaddr - (bh.curr_rec.offset + (d + SIZEOF_rec_hdr)))) (node :: above) := by
      rw [tail, resized, ← List.append_assoc, ← List.append_assoc]
      rw [found] at header ⊢
      exact .cons wellFormed (by unfold MAX_KEY_SZ; exact short) less header more
    have stored := @stored_set g buffaddr bh below (node :: above) value searched target g.cmpc2 _ _ small behind
      new_rec_size sized
    have lens := length_stored_set searched stored
    rw [List.length_append, length_rec_hdr, ByteMemory.length_read] at lens
    refine ⟨editSegments bh.curr_rec.offset (recordNews g bh new_rec_size value ++
        [rec_hdr (rec_size - next_rec_shrink) bh.curr_rec.match_ g.next_cmpc2])
      [.buffer (bh.curr_rec.offset + (d + SIZEOF_rec_hdr))
        (bsiz buffaddr - (bh.curr_rec.offset + (d + SIZEOF_rec_hdr)) : Nat)], ?_, ?_, ?_⟩
    · have place : (bh.curr_rec.offset + (next_rec_shrink + SIZEOF_rec_hdr)).toNat =
          bh.curr_rec.offset + (d + SIZEOF_rec_hdr) := by omega
      have count : (bsiz buffaddr : Int) - bh.curr_rec.offset - (next_rec_shrink + SIZEOF_rec_hdr) =
          (bsiz buffaddr - (bh.curr_rec.offset + (d + SIZEOF_rec_hdr)) : Nat) := by omega
      unfold placeSegments editSegments recordNews
      dsimp only
      rw [if_pos rfl, if_pos (by omega), if_pos rfl, if_pos rfl, if_neg (by omega), place, count, List.map_append,
        List.map_append, map_valueNews]
      rfl
    · apply writes_edit first (.inr ⟨_, _, rfl, by omega⟩)
      rw [List.flatten_append, flatten_recordNews, List.flatten_singleton, fragments_cons, fragments_nil,
        assembled_cons, assembled_nil, List.append_nil, List.append_assoc]
      exact stored
    · rw [sized]
      omega

/-- The segments for a key that is there. -/
theorem placeSegments_here (searched : SearchedLeaf buffaddr g.gv_currkey.bytes bh below (node :: above))
    (target : WellFormedTarget g.gv_currkey) (here : node.key = g.gv_currkey.bytes)
    (small : SIZEOF_rec_hdr + (g.gv_currkey.end_ + 1) + value.length < 2 ^ 16) {new_rec_size : Int}
    (sized : new_rec_size =
      SIZEOF_rec_hdr + ((g.gv_currkey.end_ + 1 : Nat) - bh.prev_rec.match_ : Int) + value.length) :
    ∃ segments, placeSegments g bh (bsiz buffaddr) value false (rsiz buffaddr bh.curr_rec.offset)
        new_rec_size 0 = .ok segments ∧
      Writes buffaddr segments (below ++ ⟨g.gv_currkey.bytes, value⟩ :: above) ∧
      (bsiz buffaddr : Int) + (new_rec_size - rsiz buffaddr bh.curr_rec.offset) =
        (SIZEOF_blk_hdr + storedSize [] (below ++ ⟨g.gv_currkey.bytes, value⟩ :: above) : Nat) := by
  have first := searched.first
  have inside := lastNode_le searched
  obtain ⟨rest, head, more⟩ := searched.head
  have upto := head.upto
  rw [← head.rsiz] at upto
  have restEq := head.rest
  rw [← head.rsiz] at restEq
  rw [here] at more
  have stored := @stored_set g buffaddr bh below (node :: above) value searched target g.cmpc2 above rest small more
    new_rec_size sized
  have restLen := congrArg List.length restEq
  rw [ByteMemory.length_read] at restLen
  have lens := length_stored_set searched stored
  rw [← restLen] at lens
  generalize rsiz buffaddr bh.curr_rec.offset = rec_size at *
  have sum : (bsiz buffaddr : Int) + (new_rec_size - rec_size) =
      (SIZEOF_blk_hdr + storedSize [] (below ++ ⟨g.gv_currkey.bytes, value⟩ :: above) : Nat) := by
    rw [sized]
    omega
  by_cases behind : bsiz buffaddr - (bh.curr_rec.offset + rec_size) = 0
  · -- the record is the last one
    have none : rest = [] := by
      apply List.eq_nil_of_length_eq_zero
      omega
    subst none
    refine ⟨editSegments bh.curr_rec.offset (recordNews g bh new_rec_size value) [], ?_, ?_, sum⟩
    · unfold placeSegments editSegments recordNews
      dsimp only
      rw [if_neg Bool.false_ne_true, if_neg (by omega), List.map_append, map_valueNews, List.append_nil]
      rfl
    · apply writes_edit first (.inl rfl)
      rw [flatten_recordNews, fragments_nil, assembled_nil]
      exact stored
  · refine ⟨editSegments bh.curr_rec.offset (recordNews g bh new_rec_size value)
      [.buffer (bh.curr_rec.offset + rec_size) (bsiz buffaddr - (bh.curr_rec.offset + rec_size) : Nat)],
      ?_, ?_, sum⟩
    · have place : (((bh.curr_rec.offset + rec_size : Nat) : Int) + 0).toNat = bh.curr_rec.offset + rec_size := by
        omega
      have count : (bsiz buffaddr : Int) - (bh.curr_rec.offset + rec_size : Nat) - 0 =
          (bsiz buffaddr - (bh.curr_rec.offset + rec_size) : Nat) := by omega
      unfold placeSegments editSegments recordNews
      dsimp only
      rw [if_neg Bool.false_ne_true, if_neg Bool.false_ne_true, if_neg Bool.false_ne_true, if_pos (by omega),
        if_neg (by omega), place, count, List.map_append, map_valueNews, List.append_nil]
      rfl
    · apply writes_edit first (.inr ⟨_, _, rfl, by omega⟩)
      rw [flatten_recordNews, fragments_cons, fragments_nil, assembled_cons, assembled_nil, List.append_nil]
      have content : (BlkSegment.buffer (bh.curr_rec.offset + rec_size)
          (bsiz buffaddr - (bh.curr_rec.offset + rec_size) : Nat)).fragment.content buffaddr = rest := restEq
      rw [content]
      exact stored

/-- What an update of a leaf comes to, when the nodes are to become `nodes'`. -/
inductive SetOutcome (g : UpdateGlobals) (buffaddr : ByteMemory) (value : List UInt8) (nodes nodes' : List Node) :
    Except UpdateError PutOutcome → Prop
  | duplicate (same : nodes' = nodes) : SetOutcome g buffaddr value nodes nodes' (.ok .duplicateSet)
  | update {array : UpdateArray}
      (builds : ∀ cse ctn twin base_addr, cse.level = 0 → cse.forward_process = false →
        (twin.isSome = true → cse.first_copy = true) → twin.getD base_addr = buffaddr →
        Leaf g.blk_size (gvcst_blk_build cse array ctn twin base_addr) nodes') :
      SetOutcome g buffaddr value nodes nodes' (.ok (.update array))
  | split (full : g.blk_fill_size < SIZEOF_blk_hdr + storedSize [] nodes') :
      SetOutcome g buffaddr value nodes nodes' (.ok .split)
  | tooLong (long : g.blk_reserved_size < SIZEOF_blk_hdr + SIZEOF_rec_hdr + (g.gv_currkey.end_ + 1 : Nat) +
      value.length) : SetOutcome g buffaddr value nodes nodes' (.error .rsvdbyte2high)

/-- The outcome of a place whose segments are known. -/
theorem gvcst_put2_place_outcome {new_rec : Bool} {rec_size : Nat}
    {new_rec_size delta next_rec_shrink new_blk_size_single : Int} {segments : List BlkSegment}
    {nodes nodes' : List Node} (percent : g.gv_fillfactor ≤ 100) (plain : g.rc_set_fragment = 0)
    (small : g.blk_size ≤ MAX_DB_BLK_SIZE) (single : new_blk_size_single ≤ g.blk_reserved_size)
    (placed : placeSegments g bh (bsiz buffaddr) value new_rec rec_size new_rec_size next_rec_shrink =
      .ok segments) (writes : Writes buffaddr segments nodes')
    (sum : (bsiz buffaddr : Int) + delta = (SIZEOF_blk_hdr + storedSize [] nodes' : Nat)) :
    SetOutcome g buffaddr value nodes nodes' (gvcst_put2_place g bh buffaddr value new_rec rec_size new_rec_size delta
      next_rec_shrink new_blk_size_single) := by
  have limit := fill_le g percent
  unfold gvcst_put2_place
  dsimp only
  rw [sum]
  by_cases within : ((SIZEOF_blk_hdr + storedSize [] nodes' : Nat) : Int) ≤ g.blk_fill_size ∨
      ((SIZEOF_blk_hdr + storedSize [] nodes' : Nat) : Int) ≤ new_blk_size_single
  · have fits : SIZEOF_blk_hdr + storedSize [] nodes' ≤ g.blk_size := by
      unfold UpdateGlobals.blk_reserved_size at limit single
      omega
    have total : SIZEOF_blk_hdr + (segments.map BlkSegment.len).sum =
        ((SIZEOF_blk_hdr + storedSize [] nodes' : Nat) : Int) := by
      rw [writes.lens, writes.total, Int.natCast_add]
    rw [if_pos within, if_pos plain, placed]
    dsimp only
    rw [BLK_FINI_eq total fits (Nat.le_add_right _ _)]
    apply SetOutcome.update
    intro cse ctn twin base_addr level backward copied source
    exact writes.builds fits small level backward copied source ctn
  · rw [if_neg within]
    apply SetOutcome.split
    omega

/-- The key of the first record that is not below the target is the target or above it. -/
theorem SearchedLeaf.here_or_greater (searched : SearchedLeaf buffaddr g.gv_currkey.bytes bh below above) :
    (∃ node others, above = node :: others ∧ node.key = g.gv_currkey.bytes ∧
      ∀ n ∈ others, g.gv_currkey.bytes < n.key) ∨ ∀ n ∈ above, g.gv_currkey.bytes < n.key := by
  cases above with
  | nil => exact .inr fun n member => absurd member List.not_mem_nil
  | cons node others =>
    have sorted := (List.pairwise_cons.mp searched.back.sorted).1
    by_cases here : node.key = g.gv_currkey.bytes
    · exact .inl ⟨node, others, rfl, here, fun n member => here ▸ sorted n member⟩
    · have notLess := searched.notLess node List.mem_cons_self
      have greater : g.gv_currkey.bytes < node.key := by
        by_contra notGreater
        exact here (List.le_antisymm (List.not_lt.mp notGreater) (List.not_lt.mp notLess))
      refine .inr fun n member => ?_
      cases List.mem_cons.mp member with
      | inl same => exact same ▸ greater
      | inr later => exact List.lt_trans greater (sorted n later)

/-- The record that is found is no longer than the block. -/
theorem found_inside (searched : SearchedLeaf buffaddr g.gv_currkey.bytes bh below above) :
    ¬ (bh.curr_rec.offset ≠ bsiz buffaddr ∧
      bh.curr_rec.offset + (if bh.curr_rec.offset = bsiz buffaddr then 0 else rsiz buffaddr bh.curr_rec.offset) >
        bsiz buffaddr) := by
  intro ⟨inside, beyond⟩
  rw [if_neg inside] at beyond
  cases above with
  | nil =>
    have back := searched.back.length_eq
    have last := searched.last
    have none : storedSize (lastNode [] below) [] = 0 := rfl
    rw [ByteMemory.length_read] at back
    omega
  | cons node others =>
    obtain ⟨rest, head, _⟩ := searched.head
    have upto := head.upto
    rw [← head.rsiz] at upto
    omega

/-- A SET in a well-formed leaf, behind the test for the dummy value of a spanning node. The block that is built is a
well-formed leaf that holds the nodes with the key set to the value. Nothing is built when the value is there, when
the leaf gets too full, or when the record is too long for any block. -/
theorem gvcst_put2_leaf_sets {nodes : List Node} (leaf : Leaf g.blk_size buffaddr nodes)
    (target : WellFormedTarget g.gv_currkey) (room : MAX_KEY_SZ ≤ g.gv_altkey.top)
    (percent : g.gv_fillfactor ≤ 100) (plain : g.rc_set_fragment = 0) (value : List UInt8) :
    ∃ bh altkey, gvcst_search_blk g.blk_size g.expand_prev_key g.gv_altkey g.gv_currkey buffaddr =
        .ok (bh, altkey) ∧
      SetOutcome g buffaddr value nodes (setNode g.gv_currkey.bytes value nodes)
        (gvcst_put2_leaf g bh buffaddr value) := by
  obtain ⟨bh, altkey, below, above, result, rfl, searched⟩ :=
    gvcst_search_blk_leaf leaf target room g.expand_prev_key
  refine ⟨bh, altkey, result, ?_⟩
  have width := g.gv_currkey.length_bytes
  have inside := lastNode_le searched
  have smallBlock := leaf.small
  unfold gvcst_put2_leaf
  dsimp only
  by_cases long : (SIZEOF_blk_hdr : Int) + SIZEOF_rec_hdr + ((g.gv_currkey.end_ + 1 : Nat) : Int) + value.length >
      g.blk_reserved_size
  · rw [if_pos long]
    exact .tooLong long
  · have small : SIZEOF_rec_hdr + (g.gv_currkey.end_ + 1) + value.length < 2 ^ 16 := by
      unfold UpdateGlobals.blk_reserved_size at long
      unfold MAX_DB_BLK_SIZE at smallBlock
      omega
    rw [if_neg long, if_neg (found_inside searched)]
    cases searched.here_or_greater with
    | inr greater =>
      have differ : g.gv_currkey.end_ + 1 ≠ bh.curr_rec.match_ := by
        intro whole
        rw [searched.curr] at whole
        cases above with
        | nil => cases whole
        | cons node others =>
          have full : commonPrefix g.gv_currkey.bytes node.key = g.gv_currkey.bytes.length := by
            rw [width]
            exact whole.symm
          have same := (target.wellFormed.full_iff
            (searched.back.grammar node List.mem_cons_self).1).mp full
          have less := greater node List.mem_cons_self
          rw [same] at less
          exact List.lt_irrefl _ less
      obtain ⟨segments, placed, writes, sum⟩ := @placeSegments_new g buffaddr bh below above value searched target
        greater small _ _ _ rfl rfl rfl
      have new : (SIZEOF_rec_hdr : Int) + ((g.gv_currkey.end_ + 1 : Nat) : Int) - bh.prev_rec.match_ + value.length =
          SIZEOF_rec_hdr + ((g.gv_currkey.end_ + 1 : Nat) - bh.prev_rec.match_ : Int) + value.length := by omega
      rw [if_pos differ, setNode_between searched.less greater, new]
      exact gvcst_put2_place_outcome percent plain smallBlock (Int.not_lt.mp long) placed writes sum
    | inl found =>
      obtain ⟨node, others, rfl, here, greater⟩ := found
      obtain ⟨rest, head, more⟩ := searched.head
      have upto := head.upto
      have size := head.rsiz
      have notTop : bh.curr_rec.offset ≠ bsiz buffaddr := by
        unfold Node.size SIZEOF_rec_hdr at upto
        omega
      have whole : bh.curr_rec.match_ = g.gv_currkey.end_ + 1 := by
        rw [searched.curr, ← width]
        exact (target.wellFormed.full_iff (searched.back.grammar node List.mem_cons_self).1).mpr here
      have count : EVAL_CMPC buffaddr bh.curr_rec.offset = bh.prev_rec.match_ := by
        rw [head.cmpc, prev_match_eq searched target, here]
      obtain ⟨segments, placed, writes, sum⟩ := @placeSegments_here g buffaddr bh below others node value searched
        target here small _ rfl
      rw [if_neg (fun differ => differ whole.symm), if_neg notTop, if_neg notTop, if_neg (fun differ => differ count),
        setNode_here searched.less here greater, count]
      split
      · rename_i duplicate
        obtain ⟨zero, _, same, _⟩ := duplicate
        apply SetOutcome.duplicate
        rw [@HeadRecord.same_value buffaddr node _ _ rest value head ?_ ?_, ← here]
        · unfold Node.size at size
          rw [here, width, ← prev_match_eq searched target] at size
          omega
        · refine Eq.trans ?_ same
          congr 1
          rw [here, width, ← prev_match_eq searched target]
          omega
      · exact gvcst_put2_place_outcome percent plain smallBlock (Int.not_lt.mp long) placed writes sum

end Put

/-- A search for a key in the small leaf. -/
def smallGlobals (key : List UInt8) : UpdateGlobals :=
  ⟨512, 100, 0, 0, true, true, ⟨1024, 0, 0, fun _ => 0⟩, ⟨1024, key.length - 1, 2, fun a => key.getD a 0⟩, 0, 0⟩

/-- A new value for the second node. -/
theorem gvcst_put2_leaf_sets_second : ∃ bh altkey,
    gvcst_search_blk 512 true (smallGlobals [0x61, 0, 0xbf, 0x11, 0, 0]).gv_altkey
        (smallGlobals [0x61, 0, 0xbf, 0x11, 0, 0]).gv_currkey smallLeaf = .ok (bh, altkey) ∧
      SetOutcome (smallGlobals [0x61, 0, 0xbf, 0x11, 0, 0]) smallLeaf [7, 8] smallNodes
        (setNode [0x61, 0, 0xbf, 0x11, 0, 0] [7, 8] smallNodes)
        (gvcst_put2_leaf (smallGlobals [0x61, 0, 0xbf, 0x11, 0, 0]) bh smallLeaf [7, 8]) := by
  have key : (smallGlobals [0x61, 0, 0xbf, 0x11, 0, 0]).gv_currkey.bytes = [0x61, 0, 0xbf, 0x11, 0, 0] := by decide
  have sets := @gvcst_put2_leaf_sets (smallGlobals [0x61, 0, 0xbf, 0x11, 0, 0]) smallLeaf smallNodes smallLeaf_holds
    ⟨key ▸ smallNodes_grammar.2, by decide⟩ (by decide) (by decide) rfl [7, 8]
  rw [key] at sets
  exact sets

end Ydb.BlockUpdate
