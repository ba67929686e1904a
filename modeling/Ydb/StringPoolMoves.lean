import Ydb.StringPool

/-!
# Moving strings

Without alignment, runs of strings are moved without padding. A run is the union
of its strings, so that the space for all runs is the space that was counted.
Runs that are moved down, or to memory above, do not touch strings that are still
to be moved.
-/

namespace Ydb

open Lib

/-- Where a string ends. -/
def Mstr.finish (s : Mstr) : Nat := s.addr + s.len

/-- A descriptor after a move. -/
def Mstr.shift (s : Mstr) (delta : Int) : Mstr := { s with addr := ((s.addr : Int) - delta).toNat }

theorem spaceLoop_congr {align : Bool} {mstrs mstrs' : Nat → Mstr} {cstr : List Nat}
    (same : ∀ c ∈ cstr, mstrs' c = mstrs c) (straddr totspace : Nat) :
    spaceLoop align mstrs' cstr straddr totspace = spaceLoop align mstrs cstr straddr totspace := by
  induction cstr generalizing straddr totspace with
  | nil => rfl
  | cons c cstr ih =>
    have rest := ih fun d member => same d (List.mem_cons_of_mem c member)
    simp only [spaceLoop, same c List.mem_cons_self, rest]

/-- The strings of a run are counted as the distance between its ends. -/
theorem spaceLoop_step {mstrs : Nat → Mstr} {c : Nat} {cstr : List Nat} {straddr totspace : Nat}
    (near : (mstrs c).addr ≤ straddr) :
    spaceLoop false mstrs (c :: cstr) straddr totspace = spaceLoop false mstrs cstr
      (max straddr (mstrs c).finish) (totspace + (max straddr (mstrs c).finish - straddr)) := by
  rw [spaceLoop, Mstr.finish]
  dsimp only
  split
  next longer =>
    rw [max_eq_right (Nat.le_of_lt longer), if_neg (by decide)]
    congr 1
    split
    · omega
    · omega
  next inside =>
    rw [max_eq_left (Nat.not_lt.mp inside), Nat.sub_self, Nat.add_zero]

/-- A string behind the others is counted as a whole. -/
theorem spaceLoop_start {mstrs : Nat → Mstr} {c : Nat} {cstr : List Nat} {straddr totspace : Nat}
    (behind : straddr ≤ (mstrs c).addr) (nonempty : 0 < (mstrs c).len) :
    spaceLoop false mstrs (c :: cstr) straddr totspace =
      spaceLoop false mstrs (c :: cstr) (mstrs c).addr totspace := by
  have first : straddr < (mstrs c).addr + (mstrs c).len := by omega
  have itself : (mstrs c).addr < (mstrs c).addr + (mstrs c).len := by omega
  rw [spaceLoop, spaceLoop]
  dsimp only
  rw [if_pos first, if_pos behind, if_pos itself, if_pos (Nat.le_refl _)]

/-- The run of strings at the beginning of a list. -/
structure Run (mstrs : Nat → Mstr) (delta : Int) (cstr : List Nat) (begaddr endaddr : Nat)
    (block rest : List Nat) (mstrs' : Nat → Mstr) : Prop where
  whole : cstr = block ++ rest
  takes : ∀ c ∈ cstr.head?, (mstrs c).addr ≤ begaddr → c ∈ block
  grows : begaddr ≤ endaddr
  inside : ∀ c ∈ block, (mstrs c).finish ≤ endaddr
  bound : ∀ limit, begaddr ≤ limit → (∀ c ∈ cstr, (mstrs c).finish ≤ limit) → endaddr ≤ limit
  shifted : ∀ c ∈ block, mstrs' c = (mstrs c).shift delta
  others : ∀ c, c ∉ block → mstrs' c = mstrs c
  gap : ∀ c ∈ rest, endaddr < (mstrs c).addr
  space : ∀ totspace, spaceLoop false mstrs cstr begaddr totspace =
    spaceLoop false mstrs rest endaddr (totspace + (endaddr - begaddr))

/-- A block of strings is moved as a whole. -/
theorem PROCESS_CONTIGUOUS_BLOCK_spec {mstrs : Nat → Mstr} (delta : Int) {cstr : List Nat}
    (begaddr : Nat) (nodup : cstr.Nodup)
    (sorted : cstr.Pairwise fun a b => (mstrs a).addr ≤ (mstrs b).addr) :
    ∃ endaddr block rest mstrs',
      PROCESS_CONTIGUOUS_BLOCK false delta begaddr 0 cstr mstrs = (endaddr, rest, mstrs') ∧
      Run mstrs delta cstr begaddr endaddr block rest mstrs' := by
  induction cstr generalizing begaddr mstrs with
  | nil =>
    exact ⟨begaddr, [], [], mstrs, rfl, rfl, nofun, Nat.le_refl _, nofun, fun _ start _ => start, nofun,
      fun _ _ => rfl, nofun, fun _ => by rw [Nat.sub_self, Nat.add_zero]⟩
  | cons c cstr ih =>
    obtain ⟨new, nodup⟩ := List.nodup_cons.mp nodup
    obtain ⟨first, sorted⟩ := List.pairwise_cons.mp sorted
    rw [PROCESS_CONTIGUOUS_BLOCK]
    split
    next apart =>
      refine ⟨begaddr, [], c :: cstr, mstrs, rfl, rfl, ?_, Nat.le_refl _, nofun,
        fun _ start _ => start, nofun, fun _ _ => rfl, ?_,
        fun _ => by rw [Nat.sub_self, Nat.add_zero]⟩
      · intro d head near
        obtain rfl : c = d := Option.some.inj head
        omega
      intro d member
      rcases List.mem_cons.mp member with rfl | later
      · exact apart.1
      · exact Nat.lt_of_lt_of_le apart.1 (first d later)
    next joined =>
      have near : (mstrs c).addr ≤ begaddr := by omega
      -- The descriptors behind are not changed by the shift of this one.
      have same : ∀ d ∈ cstr, Function.update mstrs c ((mstrs c).shift delta) d = mstrs d := by
        intro d member
        apply Function.update_of_ne
        rintro rfl
        exact new member
      have sorted' : cstr.Pairwise fun a b =>
          (Function.update mstrs c ((mstrs c).shift delta) a).addr ≤
            (Function.update mstrs c ((mstrs c).shift delta) b).addr := by
        apply sorted.imp_of_mem
        intro a b aMember bMember ordered
        rw [same a aMember, same b bMember]
        exact ordered
      obtain ⟨endaddr, block, rest, mstrs', result, run⟩ :=
        ih (max begaddr (mstrs c).finish) nodup sorted'
      have blockSame : ∀ d ∈ block, d ∈ cstr := by
        intro d member
        rw [run.whole]
        exact List.mem_append_left _ member
      have restSame : ∀ d ∈ rest, d ∈ cstr := by
        intro d member
        rw [run.whole]
        exact List.mem_append_right _ member
      have grows := run.grows
      refine ⟨endaddr, c :: block, rest, mstrs', result, ?_, ?_, ?_, ?_, ?_, ?_, ?_, ?_, ?_⟩
      · rw [run.whole, List.cons_append]
      · intro d head _
        obtain rfl : c = d := Option.some.inj head
        exact List.mem_cons_self
      · omega
      · intro d member
        rcases List.mem_cons.mp member with rfl | later
        · omega
        · have ends := run.inside d later
          rw [same d (blockSame d later)] at ends
          exact ends
      · intro limit start ends
        apply run.bound limit
        · have here := ends c List.mem_cons_self
          omega
        · intro d member
          rw [same d member]
          exact ends d (List.mem_cons_of_mem c member)
      · intro d member
        by_cases here : d = c
        · subst here
          have notLater : d ∉ block := fun later => new (blockSame d later)
          rw [run.others d notLater, Function.update_self]
        · have later : d ∈ block := (List.mem_cons.mp member).resolve_left here
          rw [run.shifted d later, same d (blockSame d later)]
      · intro d absent
        rw [List.mem_cons, not_or] at absent
        rw [run.others d absent.2, Function.update_of_ne absent.1]
      · intro d member
        have behind := run.gap d member
        rw [same d (restSame d member)] at behind
        exact behind
      · intro totspace
        have counted := run.space (totspace + (max begaddr (mstrs c).finish - begaddr))
        rw [spaceLoop_congr same, spaceLoop_congr fun d member => same d (restSame d member)]
          at counted
        rw [spaceLoop_step near, counted]
        congr 1
        omega

/-! ## The loop over the runs -/

/-- Strings that were moved, and strings that are not touched by later moves: the moves
go down, or to memory above. -/
structure Moving (start : StpMoving) (base : Nat) (done rest : List Nat) (s : StpMoving) :
    Prop where
  moved : ∀ c ∈ done, base ≤ (s.mstrs c).addr ∧ (s.mstrs c).finish ≤ s.free ∧
    (s.mstrs c).len = (start.mstrs c).len ∧
    s.mem.read (s.mstrs c).addr (s.mstrs c).len =
      start.mem.read (start.mstrs c).addr (start.mstrs c).len
  waiting : ∀ c, c ∉ done → s.mstrs c = start.mstrs c
  based : base ≤ s.free
  frame : ∀ a, a < base ∨ s.free ≤ a → s.mem a = start.mem a
  clear : (∀ c ∈ rest, s.free ≤ (start.mstrs c).addr) ∨
    (∀ c ∈ rest, (start.mstrs c).finish ≤ base)
  safe : ∀ move ∈ s.moves, move ∈ start.moves ∨ ∀ p ∈ move.pending,
    p.finish ≤ move.target ∨ move.target + move.blklen ≤ p.addr

theorem Moving.reads {start s : StpMoving} {base : Nat} {done rest : List Nat}
    (moving : Moving start base done rest s) {c : Nat} (member : c ∈ rest) :
    s.mem.read (start.mstrs c).addr (start.mstrs c).len =
      start.mem.read (start.mstrs c).addr (start.mstrs c).len := by
  apply ByteMemory.read_congr
  intro i inside
  apply moving.frame
  rcases moving.clear with ahead | below
  · have far := ahead c member
    omega
  · have before := below c member
    rw [Mstr.finish] at before
    omega

/-- One run is moved. -/
theorem Moving.run {start s : StpMoving} {base begaddr endaddr : Nat} {done cstr block rest : List Nat}
    {mstrs' : Nat → Mstr} (moving : Moving start base done cstr s) (copies : Bool)
    (new : ∀ c ∈ cstr, c ∉ done) (first : ∃ c ∈ cstr, (s.mstrs c).addr = begaddr) (low : ∀ c ∈ cstr, begaddr ≤ (s.mstrs c).addr)
    (run : Run s.mstrs ((begaddr : Int) - s.free) cstr begaddr endaddr block rest mstrs') :
    Moving start base (done ++ block) rest {
      mem := if copies || ((begaddr : Int) - s.free) != 0 then
          s.mem.memmove s.free begaddr (endaddr - begaddr) else s.mem
      mstrs := mstrs'
      free := s.free + (endaddr - begaddr)
      moves := ⟨s.free, begaddr, endaddr - begaddr, rest.map s.mstrs⟩ :: s.moves } := by
  have grows := run.grows
  have based := moving.based
  have unmoved : ∀ c ∈ cstr, s.mstrs c = start.mstrs c := fun c member =>
    moving.waiting c (new c member)
  have ofBlock : ∀ c ∈ block, c ∈ cstr := by
    intro c member
    rw [run.whole]
    exact List.mem_append_left _ member
  have ofRest : ∀ c ∈ rest, c ∈ cstr := by
    intro c member
    rw [run.whole]
    exact List.mem_append_right _ member
  -- A run that stays where it is may as well be moved.
  have mem : ∀ a, (if copies || ((begaddr : Int) - s.free) != 0 then
      s.mem.memmove s.free begaddr (endaddr - begaddr) else s.mem) a =
        s.mem.memmove s.free begaddr (endaddr - begaddr) a := by
    intro a
    split
    · rfl
    next stays =>
      have here : begaddr = s.free := by
        simp at stays
        omega
      rw [here, ByteMemory.memmove]
      split
      · congr 1
        omega
      · rfl
  have memEq := funext mem
  obtain ⟨f, fMember, fAddr⟩ := first
  have side : (∀ c ∈ rest, s.free + (endaddr - begaddr) ≤ (start.mstrs c).addr) ∨
      (∀ c ∈ rest, (start.mstrs c).finish ≤ base) := by
    rcases moving.clear with ahead | below
    · left
      intro c member
      have gap := run.gap c member
      have down := ahead f fMember
      rw [unmoved c (ofRest c member)] at gap
      rw [← unmoved f fMember, fAddr] at down
      omega
    · right
      intro c member
      exact below c (ofRest c member)
  rw [memEq]
  refine ⟨?_, ?_, ?_, ?_, side, ?_⟩
  · intro c member
    rcases List.mem_append.mp member with before | here
    · have elsewhere : c ∉ block := fun inBlock => new c (ofBlock c inBlock) before
      obtain ⟨above, ends, length, bytes⟩ := moving.moved c before
      dsimp only
      rw [run.others c elsewhere]
      refine ⟨above, Nat.le_add_right_of_le ends, length, ?_⟩
      rw [ByteMemory.read_memmove_of_apart (.inl ends)]
      exact bytes
    · have low' := low c (ofBlock c here)
      have ends := run.inside c here
      have addr : ((s.mstrs c).shift ((begaddr : Int) - s.free)).addr =
          (s.mstrs c).addr - begaddr + s.free := by
        show (((s.mstrs c).addr : Int) - ((begaddr : Int) - s.free)).toNat = _
        omega
      have length : ((s.mstrs c).shift ((begaddr : Int) - s.free)).len = (s.mstrs c).len := rfl
      dsimp only
      rw [run.shifted c here, Mstr.finish, length, addr, unmoved c (ofBlock c here)]
      rw [unmoved c (ofBlock c here)] at low' ends
      rw [Mstr.finish] at ends
      refine ⟨by omega, by omega, rfl, ?_⟩
      rw [ByteMemory.read_memmove_inside low' (by omega)]
      exact moving.reads (ofBlock c here)
  · intro c absent
    rw [List.mem_append, not_or] at absent
    dsimp only
    rw [run.others c absent.2]
    exact moving.waiting c absent.1
  · exact Nat.le_add_right_of_le based
  · intro a outside
    dsimp only at outside ⊢
    rw [ByteMemory.memmove_of_outside (by omega)]
    apply moving.frame
    omega
  · intro move member
    rcases List.mem_cons.mp member with rfl | earlier
    · right
      intro p pending
      obtain ⟨c, inRest, rfl⟩ := List.mem_map.mp pending
      rw [unmoved c (ofRest c inRest)]
      rcases side with ahead | below
      · exact .inr (ahead c inRest)
      · exact .inl (Nat.le_trans (below c inRest) based)
    · exact moving.safe move earlier

/-- All runs are moved, in the space that was counted. -/
theorem moveBlocks_spec {start : StpMoving} {base : Nat} (copies : Bool) (rounds : Nat)
    {done rest : List Nat} {s : StpMoving} (straddr : Nat) (enough : rest.length ≤ rounds)
    (moving : Moving start base done rest s) (new : ∀ c ∈ rest, c ∉ done) (nodup : rest.Nodup)
    (sorted : rest.Pairwise fun a b => (start.mstrs a).addr ≤ (start.mstrs b).addr)
    (nonempty : ∀ c ∈ rest, 0 < (start.mstrs c).len)
    (behind : ∀ c ∈ rest, straddr ≤ (start.mstrs c).addr) :
    Moving start base (done ++ rest) [] (moveBlocks false copies rounds rest s) ∧
      (moveBlocks false copies rounds rest s).free = spaceLoop false start.mstrs rest straddr s.free := by
  induction rounds generalizing done rest s straddr with
  | zero =>
    obtain rfl := List.length_eq_zero_iff.mp (Nat.le_zero.mp enough)
    rw [List.append_nil]
    exact ⟨moving, rfl⟩
  | succ rounds ih =>
    cases rest with
    | nil =>
      rw [List.append_nil]
      exact ⟨moving, rfl⟩
    | cons c cstr =>
      have unmoved : ∀ d ∈ c :: cstr, s.mstrs d = start.mstrs d := fun d member =>
        moving.waiting d (new d member)
      have sorted' : (c :: cstr).Pairwise fun a b => (s.mstrs a).addr ≤ (s.mstrs b).addr := by
        apply sorted.imp_of_mem
        intro a b aMember bMember ordered
        rw [unmoved a aMember, unmoved b bMember]
        exact ordered
      have low : ∀ d ∈ c :: cstr, (s.mstrs c).addr ≤ (s.mstrs d).addr := by
        intro d member
        rcases List.mem_cons.mp member with rfl | later
        · exact Nat.le_refl _
        · exact (List.pairwise_cons.mp sorted').1 d later
      obtain ⟨endaddr, block, rest, mstrs', result, run⟩ := PROCESS_CONTIGUOUS_BLOCK_spec
        (((s.mstrs c).addr : Int) - s.free) (s.mstrs c).addr nodup sorted'
      have moved := moving.run copies new ⟨c, List.mem_cons_self, rfl⟩ low run
      have fewer : rest.length ≤ rounds := by
        have inBlock := run.takes c rfl (Nat.le_refl _)
        have total := congrArg List.length run.whole
        rw [List.length_append] at total
        have := List.length_pos_of_mem inBlock
        omega
      have ofRest : ∀ d ∈ rest, d ∈ c :: cstr := by
        intro d member
        rw [run.whole]
        exact List.mem_append_right _ member
      have restNodup : (block ++ rest).Nodup := run.whole ▸ nodup
      have restSorted := run.whole ▸ sorted
      obtain ⟨all, freed⟩ := ih endaddr fewer moved
        (by
          intro d member inDone
          rcases List.mem_append.mp inDone with before | inBlock
          · exact new d (ofRest d member) before
          · exact (List.nodup_append.mp restNodup).2.2 d inBlock d member rfl)
        (List.nodup_append.mp restNodup).2.1 (List.pairwise_append.mp restSorted).2.1
        (fun d member => nonempty d (ofRest d member))
        (by
          intro d member
          rw [← unmoved d (ofRest d member)]
          exact Nat.le_of_lt (run.gap d member))
      rw [moveBlocks]
      dsimp only
      rw [if_neg (by decide), result]
      constructor
      · rw [run.whole, ← List.append_assoc]
        exact all
      · rw [freed, spaceLoop_start (behind c List.mem_cons_self) (nonempty c List.mem_cons_self),
          ← spaceLoop_congr unmoved, ← unmoved c List.mem_cons_self, run.space,
          spaceLoop_congr fun d member => unmoved d (ofRest d member)]

theorem spaceLoop_add {mstrs : Nat → Mstr} {cstr : List Nat} (straddr more totspace : Nat) :
    spaceLoop false mstrs cstr straddr (more + totspace) =
      more + spaceLoop false mstrs cstr straddr totspace := by
  induction cstr generalizing straddr totspace with
  | nil => rfl
  | cons c cstr ih =>
    rw [spaceLoop, spaceLoop]
    dsimp only
    split
    · rw [if_neg Bool.false_ne_true, if_neg Bool.false_ne_true, Nat.add_assoc, ih]
    · exact ih straddr totspace

/-- Sorted strings are moved to a place that none of them is in the way of. -/
theorem moveBlocks_all {start : StpMoving} {array : List Nat} (copies : Bool) (nodup : array.Nodup)
    (sorted : array.Pairwise fun a b => (start.mstrs a).addr ≤ (start.mstrs b).addr)
    (nonempty : ∀ c ∈ array, 0 < (start.mstrs c).len)
    (clear : (∀ c ∈ array, start.free ≤ (start.mstrs c).addr) ∨
      (∀ c ∈ array, (start.mstrs c).finish ≤ start.free)) :
    Moving start start.free array [] (moveBlocks false copies array.length array start) ∧
      (moveBlocks false copies array.length array start).free =
        start.free + totalSpace false start.mstrs array := by
  have begins : Moving start start.free [] array start :=
    ⟨nofun, fun _ _ => rfl, Nat.le_refl _, fun _ _ => rfl, clear, fun _ member => .inl member⟩
  cases array with
  | nil => exact ⟨begins, rfl⟩
  | cons c cstr =>
    have low : ∀ d ∈ c :: cstr, (start.mstrs c).addr ≤ (start.mstrs d).addr := by
      intro d member
      rcases List.mem_cons.mp member with rfl | later
      · exact Nat.le_refl _
      · exact (List.pairwise_cons.mp sorted).1 d later
    obtain ⟨all, freed⟩ := moveBlocks_spec copies _ (start.mstrs c).addr (Nat.le_refl _)
      begins nofun nodup sorted nonempty low
    exact ⟨all, freed.trans (spaceLoop_add (start.mstrs c).addr start.free 0)⟩

end Ydb
