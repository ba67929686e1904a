import Ydb.LeafNodes

/-!
# The block that an update array makes

The bytes of the block behind its header are those of the segments in their order, whether the segments are
moved inside one buffer or from another one.
-/

namespace Ydb.BlockUpdate

open Lib

/-- What a segment copies. -/
def BlkSegment.fragment : BlkSegment → Fragment
  | .buffer offset len => .source offset len.toNat
  | .array bytes => .new bytes

/-- What the segments copy. -/
def fragments (segments : List BlkSegment) : List Fragment := segments.map BlkSegment.fragment

variable {twin : Twin} {base_addr : ByteMemory} {segments : List BlkSegment} {ptr : Nat}

@[simp] theorem fragments_nil : fragments [] = [] := rfl

@[simp] theorem fragments_cons {seg : BlkSegment} : fragments (seg :: segments) = seg.fragment :: fragments segments :=
  rfl

@[simp] theorem fragments_append {front back : List BlkSegment} :
    fragments (front ++ back) = fragments front ++ fragments back := List.map_append

theorem fragment_len (seg : BlkSegment) : seg.fragment.len = seg.len.toNat := by
  cases seg with
  | buffer offset len => rfl
  | array bytes => exact (Int.toNat_natCast _).symm

theorem memmove_eq (seg : BlkSegment) : seg.memmove twin ptr base_addr = seg.fragment.move twin ptr base_addr := by
  cases seg with
  | buffer offset len => rfl
  | array bytes => rfl

theorem buildForward_eq : buildForward twin segments ptr base_addr =
    moveForward twin (fragments segments) ptr base_addr := by
  induction segments generalizing ptr base_addr with
  | nil => rfl
  | cons seg segments ih =>
    rw [buildForward, ih, fragments_cons, moveForward, memmove_eq, fragment_len]

theorem buildBackward_eq : buildBackward twin segments ptr base_addr =
    moveBackward twin (fragments segments) ptr base_addr := by
  induction segments generalizing ptr base_addr with
  | nil => rfl
  | cons seg segments ih =>
    rw [buildBackward, fragments_cons, moveBackward, fragment_len]
    rw [ih, memmove_eq]

theorem clearBackward_front {front back : List Fragment} (clear : ClearBackward (front ++ back) ptr) :
    ClearBackward front ptr := by
  induction front generalizing ptr with
  | nil => exact trivial
  | cons fragment front ih =>
    exact ⟨fun f member => clear.1 f (List.mem_append_left _ member), ih clear.2⟩

/-! ## The block -/

/-- The segments can be moved in the order of the build without loss. -/
def ClearBuild (forward_process : Bool) (segments : List BlkSegment) (len : Nat) : Prop :=
  if forward_process then ClearForward (fragments segments) SIZEOF_blk_hdr
  else ClearBackward (fragments segments).reverse len

/-- What is built when the header is in place. -/
structure Built (built source : ByteMemory) (level len : Nat) (segments : List BlkSegment) : Prop where
  bsiz : bsiz built = len
  levl : levl built = level
  bytes : built.read SIZEOF_blk_hdr (len - SIZEOF_blk_hdr) = assembled source (fragments segments)

/-- The moves of a build. -/
def moved (cse : CwSetElement) (array : UpdateArray) (twin : Twin) (start : ByteMemory) : ByteMemory :=
  let segments := if cse.first_copy then array.segments else array.segments.tail
  if cse.forward_process then
    let ptr :=
      if cse.first_copy then SIZEOF_blk_hdr
      else SIZEOF_blk_hdr + ((array.segments.map BlkSegment.len).headD 0).toNat
    moveForward twin (fragments segments) ptr start
  else moveBackward twin (fragments segments).reverse array.len start

theorem gvcst_blk_build_eq (cse : CwSetElement) (array : UpdateArray) (ctn : Nat) :
    gvcst_blk_build cse array ctn twin base_addr =
      moved cse array twin (storeHeader base_addr cse.level array.len ctn) := by
  have reversed : ∀ segs : List BlkSegment, fragments segs.reverse = (fragments segs).reverse := fun segs =>
    List.map_reverse
  unfold gvcst_blk_build moved
  dsimp only
  rw [buildForward_eq, buildBackward_eq, reversed]

/-- A move of all segments, which is the build when the first one is to be copied. -/
theorem read_moved_all {forward_process : Bool} {start : ByteMemory} {len : Nat}
    (total : len = SIZEOF_blk_hdr + totalLen (fragments segments))
    (clear : twin = none → ClearBuild forward_process segments len) :
    (if forward_process then moveForward twin (fragments segments) SIZEOF_blk_hdr start
      else moveBackward twin (fragments segments).reverse len start).read SIZEOF_blk_hdr (len - SIZEOF_blk_hdr) =
      assembled (twin.getD start) (fragments segments) := by
  subst total
  rw [Nat.add_sub_cancel_left]
  cases forward_process with
  | true =>
    rw [if_pos rfl]
    exact read_moveForward clear
  | false =>
    have back := @read_moveBackward twin start (fragments segments).reverse
      (SIZEOF_blk_hdr + totalLen (fragments segments)) (by rw [totalLen_reverse]; omega) clear
    rw [totalLen_reverse, Nat.add_sub_cancel, List.reverse_reverse] at back
    exact back

/-- Outside of the place for the segments nothing is moved. -/
theorem moved_of_outside {forward_process : Bool} {start : ByteMemory} {place len a : Nat}
    (total : len = place + totalLen (fragments segments)) (outside : a < place) :
    (if forward_process then moveForward twin (fragments segments) place start
      else moveBackward twin (fragments segments).reverse len start) a = start a := by
  cases forward_process with
  | true =>
    rw [if_pos rfl]
    exact moveForward_of_outside (.inl outside)
  | false =>
    rw [if_neg Bool.false_ne_true]
    exact moveBackward_of_outside (by rw [totalLen_reverse]; omega) (.inl (by rw [totalLen_reverse]; omega))

theorem moved_first_copy {cse : CwSetElement} {array : UpdateArray} {start : ByteMemory}
    (first : cse.first_copy = true) : moved cse array twin start =
      if cse.forward_process then moveForward twin (fragments array.segments) SIZEOF_blk_hdr start
      else moveBackward twin (fragments array.segments).reverse array.len start := by
  unfold moved
  dsimp only
  rw [if_pos first, if_pos first]

theorem moved_in_place {cse : CwSetElement} {array : UpdateArray} {start : ByteMemory} {n : Nat}
    {rest : List BlkSegment} (first : cse.first_copy = false)
    (segments : array.segments = .buffer SIZEOF_blk_hdr n :: rest) : moved cse array twin start =
      if cse.forward_process then moveForward twin (fragments rest) (SIZEOF_blk_hdr + n) start
      else moveBackward twin (fragments rest).reverse array.len start := by
  have not : ¬ cse.first_copy = true := fun yes => by
    rw [first] at yes
    cases yes
  unfold moved
  dsimp only
  rw [if_neg not, if_neg not, segments, List.tail_cons, List.map_cons, List.headD_cons]
  rfl

/-- What is read of a moved block. -/
theorem read_moved {cse : CwSetElement} {array : UpdateArray} {start : ByteMemory}
    (total : array.len = SIZEOF_blk_hdr + totalLen (fragments array.segments))
    (first : cse.first_copy = false →
      twin = none ∧ ∃ n : Nat, ∃ rest, array.segments = .buffer SIZEOF_blk_hdr n :: rest)
    (clear : twin = none → ClearBuild cse.forward_process array.segments array.len) :
    (moved cse array twin start).read SIZEOF_blk_hdr (array.len - SIZEOF_blk_hdr) =
        assembled (twin.getD start) (fragments array.segments) ∧
      ∀ a < SIZEOF_blk_hdr, moved cse array twin start a = start a := by
  cases copy : cse.first_copy with
  | true =>
    rw [moved_first_copy copy]
    exact ⟨read_moved_all total clear, fun a before => moved_of_outside total before⟩
  | false =>
    obtain ⟨alone, n, rest, segments⟩ := first copy
    subst alone
    rw [moved_in_place copy segments]
    have clear := clear rfl
    rw [segments, fragments_cons, totalLen_cons] at total
    rw [segments] at clear ⊢
    have width : (BlkSegment.buffer SIZEOF_blk_hdr n).fragment.len = n := Int.toNat_natCast n
    rw [width] at total
    have place : array.len = SIZEOF_blk_hdr + n + totalLen (fragments rest) := by omega
    generalize built : (if cse.forward_process then moveForward none (fragments rest) (SIZEOF_blk_hdr + n) start
      else moveBackward none (fragments rest).reverse array.len start) = result
    have front : ∀ a < SIZEOF_blk_hdr + n, result a = start a := by
      intro a before
      rw [← built]
      exact moved_of_outside place before
    have behind : result.read (SIZEOF_blk_hdr + n) (totalLen (fragments rest)) = assembled start (fragments rest) := by
      rw [← built]
      unfold ClearBuild at clear
      cases forward : cse.forward_process with
      | true =>
        rw [forward, if_pos rfl, fragments_cons] at clear
        rw [if_pos rfl]
        have after := clear.2
        rw [width] at after
        exact read_moveForward fun _ => after
      | false =>
        rw [forward, if_neg Bool.false_ne_true, fragments_cons, List.reverse_cons] at clear
        rw [if_neg Bool.false_ne_true]
        have back := @read_moveBackward none start (fragments rest).reverse array.len
          (by rw [totalLen_reverse]; omega) fun _ => clearBackward_front clear
        have begins : array.len - totalLen (fragments rest) = SIZEOF_blk_hdr + n := by omega
        rw [totalLen_reverse, begins, List.reverse_reverse] at back
        exact back
    refine ⟨?_, fun a before => front a (by omega)⟩
    have parts : array.len - SIZEOF_blk_hdr = n + totalLen (fragments rest) := by omega
    rw [parts, ByteMemory.read_add, behind, fragments_cons, assembled_cons]
    congr 1
    have content : (BlkSegment.buffer SIZEOF_blk_hdr n).fragment.content ((none : Twin).getD start) =
        start.read SIZEOF_blk_hdr n := rfl
    rw [content]
    exact ByteMemory.read_congr fun i less => front _ (by omega)

/-- The block that is built from an update array whose segments can be moved. -/
theorem gvcst_blk_build_built {cse : CwSetElement} {array : UpdateArray} {ctn : Nat}
    (total : array.len = SIZEOF_blk_hdr + totalLen (fragments array.segments)) (small : array.len < 2 ^ 32)
    (level : cse.level < 256) (sources : ∀ f ∈ fragments array.segments, f.StartsFrom SIZEOF_blk_hdr)
    (first : cse.first_copy = false →
      twin = none ∧ ∃ n : Nat, ∃ rest, array.segments = .buffer SIZEOF_blk_hdr n :: rest)
    (clear : twin = none → ClearBuild cse.forward_process array.segments array.len) :
    Built (gvcst_blk_build cse array ctn twin base_addr) (twin.getD base_addr) cse.level array.len
      array.segments := by
  rw [gvcst_blk_build_eq]
  generalize starts : storeHeader base_addr cse.level array.len ctn = start
  obtain ⟨bytes, header⟩ := @read_moved twin cse array start total first clear
  refine ⟨?_, ?_, ?_⟩
  · have same : Ydb.bsiz (moved cse array twin start) = Ydb.bsiz start := by
      unfold Ydb.bsiz
      rw [header 4 (by decide), header 5 (by decide), header 6 (by decide), header 7 (by decide)]
    rw [same, ← starts]
    exact bsiz_storeHeader small
  · have same : Ydb.levl (moved cse array twin start) = Ydb.levl start := by
      unfold Ydb.levl
      rw [header 3 (by decide)]
    rw [same, ← starts]
    exact levl_storeHeader level
  · rw [bytes]
    apply assembled_congr
    intro f member
    apply Fragment.content_congr_from (sources f member)
    apply getD_move
    intro a above
    rw [← starts]
    exact storeHeader_behind above

/-- A built block is a leaf of the nodes that its segments store. -/
theorem Built.leaf {block buffaddr : ByteMemory} {blk_size len : Nat} {nodes : List Node}
    {segments : List BlkSegment} (built : Built block buffaddr 0 len segments)
    (stored : Stored [] (assembled buffaddr (fragments segments)) nodes) (header : SIZEOF_blk_hdr ≤ len)
    (fits : len ≤ blk_size) (small : blk_size ≤ MAX_DB_BLK_SIZE) : Leaf blk_size block nodes := by
  have size := built.bsiz
  rw [← size] at header fits
  refine ⟨fits, small, header, built.levl, ?_⟩
  rw [size, built.bytes]
  exact stored

end Ydb.BlockUpdate
