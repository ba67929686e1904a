import Ydb.StringPieces

/-!
# The list of the pieces that differ

Each scan is at a piece whose number it has reached, or its string has no such piece. So
the loop compares pieces with the same number, and stops when neither string has more.
-/

namespace Ydb

open Lib

/-! ## Decimal numbers -/

/-- A number in decimal. -/
def decimalBytes (n : Nat) : List UInt8 := (Nat.digits 10 n).reverse.map fun d => UInt8.ofNat (d + 48)

theorem i2ascLoop_eq (n : Nat) (digits : List UInt8) : i2ascLoop n digits = decimalBytes n ++ digits := by
  induction n, digits using i2ascLoop.induct with
  | case1 digits =>
    rw [i2ascLoop, if_pos rfl]
    rfl
  | case2 n digits positive ih =>
    have parts : decimalBytes n = decimalBytes (n / 10) ++ [UInt8.ofNat (n % 10 + 48)] := by
      rw [decimalBytes, Nat.digits_def' (by decide) (Nat.pos_of_ne_zero positive), List.reverse_cons,
        List.map_append]
      rfl
    rw [i2ascLoop, if_neg positive, ih, parts, List.append_assoc, List.singleton_append]

theorem I2A_INLINE_eq {n : Nat} (positive : 0 < n) : I2A_INLINE n = decimalBytes n := by
  have whole := i2ascLoop_eq n []
  rw [List.append_nil] at whole
  rw [← whole, I2A_INLINE]
  by_cases short : n < 1000
  · rw [if_pos short]
    have hundreds : n / 10 / 10 / 10 = 0 := by omega
    by_cases one : n < 10
    · have none : n / 10 = 0 := by omega
      have none' : n / 100 = 0 := by omega
      rw [i2ascLoop, if_neg (by omega), none, i2ascLoop, if_pos rfl, none']
      rfl
    · rw [i2ascLoop, if_neg (by omega), i2ascLoop, if_neg (by omega)]
      by_cases two : n < 100
      · have none : n / 10 / 10 = 0 := by omega
        have none' : n / 100 = 0 := by omega
        have some : n / 10 % 10 ≠ 0 := by omega
        rw [none, i2ascLoop, if_pos rfl, none']
        dsimp only
        rw [if_neg (by decide), if_pos (.inl some)]
        rfl
      · have same : n / 10 / 10 = n / 100 := by omega
        have some : n / 100 % 10 ≠ 0 := by omega
        rw [i2ascLoop, if_neg (by omega), hundreds, i2ascLoop, if_pos rfl, same]
        dsimp only
        rw [if_pos some, if_pos (.inr some)]
        rfl
  · rw [if_neg short, i2asc, if_neg (by omega)]

theorem decimalBytes_ne_nil {n : Nat} (positive : 0 < n) : decimalBytes n ≠ [] := by
  rw [decimalBytes, Nat.digits_def' (by decide) positive]
  simp

/-- Numbers with commas between them. -/
def commaSeparated (ks : List Nat) : List UInt8 := List.intercalate [0x2C] (ks.map decimalBytes)

theorem commaSeparated_cons_cons (k l : Nat) (ks : List Nat) :
    commaSeparated (k :: l :: ks) = decimalBytes k ++ 0x2C :: commaSeparated (l :: ks) := by
  simp [commaSeparated, List.intercalate]

theorem commaSeparated_snoc (ks : List Nat) (some : ks ≠ []) (k : Nat) :
    commaSeparated (ks ++ [k]) = commaSeparated ks ++ 0x2C :: decimalBytes k := by
  induction ks with
  | nil => exact absurd rfl some
  | cons l ks ih =>
    cases ks with
    | nil => simp [commaSeparated, List.intercalate]
    | cons m ks =>
      rw [List.cons_append, List.cons_append, commaSeparated_cons_cons, ← List.cons_append,
        ih (List.cons_ne_nil m ks), commaSeparated_cons_cons, List.append_assoc,
        List.cons_append]

theorem commaSeparated_ne_nil {ks : List Nat} (some : ks ≠ []) (positive : ∀ k ∈ ks, 0 < k) :
    commaSeparated ks ≠ [] := by
  cases ks with
  | nil => exact absurd rfl some
  | cons k ks =>
    have digits := decimalBytes_ne_nil (positive k List.mem_cons_self)
    cases ks with
    | nil => simpa [commaSeparated, List.intercalate] using digits
    | cons l ks => simp [commaSeparated_cons_cons, digits]

theorem addPiece_eq {ks : List Nat} (positive : ∀ k ∈ ks, 0 < k) {k : Nat} (some : 0 < k) :
    addPiece (commaSeparated ks) k = commaSeparated (ks ++ [k]) := by
  rw [addPiece, I2A_INLINE_eq some]
  by_cases first : ks = []
  · subst first
    simp [commaSeparated, List.intercalate]
  · rw [if_pos (commaSeparated_ne_nil first positive), commaSeparated_snoc ks first, List.append_assoc,
      List.singleton_append]

/-! ## Scans -/

variable {delim str : List UInt8} {scan : PieceScan} {k : Nat}

/-- A scan is at the piece with the number `k`, or there is no such piece. -/
structure ScanAt (delim str : List UInt8) (scan : PieceScan) (k : Nat) : Prop where
  inside : scan.ptr + scan.len ≤ str.length
  open_ : scan.end_seen = false → scan.ptr + scan.len = str.length ∧
    k - 1 < (pieces delim str).length ∧ pieces delim (str.drop scan.ptr) = (pieces delim str).drop (k - 1)
  closed : scan.end_seen = true → (pieces delim str).length < k

theorem bytesAt_eq {ptr len : Nat} (inside : ptr + len ≤ str.length) :
    bytesAt str ptr len = some ((str.drop ptr).take len) := if_pos inside

/-- While the end of a string is not seen, the rest of it is what the scan is at. -/
theorem ScanAt.rest (at_ : ScanAt delim str scan k) (more : scan.end_seen = false) :
    (str.drop scan.ptr).take scan.len = str.drop scan.ptr := by
  obtain ⟨whole, -, -⟩ := at_.open_ more
  apply List.take_of_length_le
  rw [List.length_drop]
  omega

theorem ScanAt.window (at_ : ScanAt delim str scan k) :
    ((str.drop scan.ptr).take scan.len).length = scan.len := by
  have inside := at_.inside
  rw [List.length_take, List.length_drop]
  omega

/-- Skipping so many pieces at most ends at the end of the string. -/
theorem ScanAt.ended (at_ : ScanAt delim str scan k) {skppcs : Nat}
    (few : scan.end_seen = false → (pieces delim (str.drop scan.ptr)).length ≤ skppcs) (positive : 0 < k) :
    (pieces delim str).length < k + skppcs := by
  cases seen : scan.end_seen with
  | true =>
    have closed := at_.closed seen
    omega
  | false =>
    obtain ⟨-, -, same⟩ := at_.open_ seen
    have count := few seen
    rw [same, List.length_drop] at count
    omega

/-- Pieces that are skipped. -/
theorem SKIP_PIECES_spec (some : delim ≠ []) (positive : 0 < k) (at_ : ScanAt delim str scan k) {skppcs : Nat}
    (more : 0 < skppcs) :
    ∃ scan', SKIP_PIECES delim str scan skppcs = .some scan' ∧ ScanAt delim str scan' (k + skppcs) := by
  have inside := at_.inside
  rw [SKIP_PIECES]
  by_cases empty : scan.len = 0
  · rw [if_neg (not_not_intro empty)]
    refine ⟨_, rfl, inside, nofun, fun _ => at_.ended (fun seen => ?_) positive⟩
    obtain ⟨whole, -, -⟩ := at_.open_ seen
    have none : str.drop scan.ptr = [] := List.drop_eq_nil_of_le (by omega)
    have single : pieces delim ([] : List UInt8) = [[]] :=
      pieces_of_none (cut_short (List.length_pos_iff.mpr some))
    rw [none, single]
    exact more
  · rw [if_pos empty, bytesAt_eq inside]
    change ∃ scan', ((matchb delim ((str.drop scan.ptr).take scan.len) skppcs).bind fun matched => _) = _ ∧ _
    rw [matchb_spec some more]
    have width := at_.window
    rcases skipPieces_spec some skppcs ((str.drop scan.ptr).take scan.len) with
      ⟨back, skipped, enough, last, same⟩ | ⟨skipped, few⟩
    · have shorter := last.length_le
      have behind := List.suffix_iff_eq_drop.mp last
      rw [skipped]
      refine ⟨⟨scan.ptr + (scan.len - back.length), scan.len - (scan.len - back.length), scan.end_seen⟩, ?_, ?_⟩
      · change (if 1 + _ ≠ 0 then _ else _) = _
        rw [if_pos (by omega), width]
      · rw [width] at shorter behind
        constructor
        · dsimp only
          omega
        · intro seen
          obtain ⟨whole, present, here⟩ := at_.open_ seen
          rw [at_.rest seen] at behind enough same
          rw [here, List.length_drop] at enough
          dsimp only
          refine ⟨by omega, by omega, ?_⟩
          rw [← List.drop_drop, ← behind, same, here, List.drop_drop]
          congr 1
          omega
        · intro seen
          have closed := at_.closed seen
          omega
    · rw [skipped]
      refine ⟨⟨scan.ptr, 0, true⟩, rfl, ?_, nofun, fun _ => at_.ended (fun seen => ?_) positive⟩
      · dsimp only
        omega
      · rw [← at_.rest seen]
        exact few

/-- What the scan of a string tells about its piece `k`. -/
theorem MATCH_CURPIECE_spec (some : delim ≠ []) (at_ : ScanAt delim str scan (k + 1)) :
    ∃ scan' piece, MATCH_CURPIECE delim str scan = .some (scan', piece) ∧
      scan'.ptr = scan.ptr ∧ ScanAt delim str (UPDATE_PTR_LEN scan' piece) (k + 2) ∧
      (piece.piece_exists = true → bytesAt str scan.ptr piece.match_len = (pieces delim str)[k]? ∧
        k < (pieces delim str).length) ∧
      (piece.piece_exists = false → (pieces delim str).length ≤ k) := by
  have inside := at_.inside
  cases seen : scan.end_seen with
  | true =>
    have closed := at_.closed seen
    refine ⟨scan, ⟨0, 0, false⟩, ?_, rfl, ?_, (by simp), fun _ => Nat.le_of_lt_succ closed⟩
    · rw [MATCH_CURPIECE, seen, if_neg (by decide)]
    · rw [UPDATE_PTR_LEN, seen, if_neg (by decide)]
      refine ⟨inside, fun open_ => ?_, fun _ => by omega⟩
      rw [seen] at open_
      cases open_
  | false =>
    obtain ⟨whole, present, here⟩ := at_.open_ seen
    rw [Nat.add_sub_cancel] at present here
    have length : (str.drop scan.ptr).length = scan.len := by
      rw [List.length_drop]
      omega
    have matched := matchb_spec some Nat.one_pos (str.drop scan.ptr)
    have piece : (pieces delim str)[k]? = (pieces delim (str.drop scan.ptr))[0]? := by
      rw [here, List.getElem?_drop, Nat.add_zero]
    rw [MATCH_CURPIECE, seen, if_pos rfl, bytesAt_eq inside, at_.rest seen, piece]
    change ∃ scan' piece, ((matchb delim (str.drop scan.ptr) 1).bind fun matched => _) = _ ∧ _
    rw [matched, skipPieces]
    cases found : cut delim (str.drop scan.ptr) with
    | none =>
      -- the last piece
      rw [pieces_of_none found]
      have last : (pieces delim str).length = k + 1 := by
        have count := congrArg List.length here
        rw [pieces_of_none found, List.length_singleton, List.length_drop] at count
        omega
      refine ⟨⟨scan.ptr, scan.len, true⟩, ⟨(str.drop scan.ptr).length, (str.drop scan.ptr).length, true⟩, rfl,
        rfl, ⟨inside, fun open_ => Bool.noConfusion open_, fun _ => by omega⟩, fun _ => ⟨?_, present⟩, (by simp)⟩
      rw [length, bytesAt_eq inside, at_.rest seen]
      rfl
    | some parts =>
      obtain ⟨front, back⟩ := parts
      have split := cut_eq found
      have count := congrArg List.length split
      rw [List.length_append, List.length_append, length] at count
      have behind : str.drop (scan.ptr + (scan.len - back.length)) = back := by
        have width : scan.len - back.length = (front ++ delim).length := by
          rw [List.length_append]
          omega
        rw [← List.drop_drop, width, split, List.drop_left]
      have next : pieces delim back = (pieces delim str).drop (k + 1) := by
        have tail := congrArg List.tail here
        rw [pieces_of_some some found, List.tail_drop] at tail
        exact tail
      have more : k + 1 < (pieces delim str).length := by
        have positive := List.length_pos_iff.mpr (pieces_ne_nil some back)
        rw [next, List.length_drop] at positive
        omega
      have width : scan.len - back.length - delim.length = front.length := by omega
      rw [pieces_of_some some found]
      refine ⟨scan, ⟨front.length, scan.len - back.length, true⟩, ?_, rfl, ?_, fun _ => ⟨?_, present⟩, (by simp)⟩
      · dsimp only [skipPieces, matchResult]
        rw [length]
        change (if 1 + (scan.len - back.length) = 0 then _ else _) = _
        rw [if_neg (by omega), width]
      · rw [UPDATE_PTR_LEN, if_pos seen]
        refine ⟨by dsimp only; omega, fun _ => ⟨by dsimp only; omega, more, ?_⟩, fun closed => ?_⟩
        · dsimp only
          rw [behind, next]
          rfl
        · dsimp only at closed
          rw [seen] at closed
          cases closed
      · dsimp only
        rw [bytesAt_eq (by omega), split, List.append_assoc, List.take_left]
        rfl

/-! ## The loop -/

variable {oldstr newstr : List UInt8} {old new : PieceScan} {oldPiece newPiece : PieceMatch}

theorem bytesAt_length {ptr len : Nat} {bytes : List UInt8} (read : bytesAt str ptr len = some bytes) :
    bytes.length = len := by
  rw [bytesAt] at read
  split at read
  · cases read
    rw [List.length_take, List.length_drop]
    omega
  · cases read

/-- Pieces are compared rightly if at least one exists. -/
theorem piecesDiffer_spec
    (oldExists : oldPiece.piece_exists = true → bytesAt oldstr old.ptr oldPiece.match_len =
      (pieces delim oldstr)[k]? ∧ k < (pieces delim oldstr).length)
    (newExists : newPiece.piece_exists = true → bytesAt newstr new.ptr newPiece.match_len =
      (pieces delim newstr)[k]? ∧ k < (pieces delim newstr).length)
    (oldNot : oldPiece.piece_exists = false → (pieces delim oldstr).length ≤ k)
    (newNot : newPiece.piece_exists = false → (pieces delim newstr).length ≤ k)
    (either : ¬ (oldPiece.piece_exists = false ∧ newPiece.piece_exists = false)) :
    piecesDiffer oldstr newstr old new oldPiece newPiece =
      some (decide ((pieces delim oldstr)[k]? ≠ (pieces delim newstr)[k]?)) := by
  unfold piecesDiffer
  cases oldHere : oldPiece.piece_exists with
  | false =>
    cases newHere : newPiece.piece_exists with
    | false => exact absurd ⟨oldHere, newHere⟩ either
    | true =>
      have absent := oldNot oldHere
      have present := (newExists newHere).2
      rw [if_pos (.inl (by decide)), List.getElem?_eq_none absent, List.getElem?_eq_getElem present]
      simp
  | true =>
    obtain ⟨left, present⟩ := oldExists oldHere
    rw [List.getElem?_eq_getElem present] at left ⊢
    cases newHere : newPiece.piece_exists with
    | false =>
      rw [if_pos (.inl (by decide)), List.getElem?_eq_none (newNot newHere)]
      simp
    | true =>
      obtain ⟨right, present'⟩ := newExists newHere
      rw [List.getElem?_eq_getElem present'] at right ⊢
      by_cases lengths : oldPiece.match_len = newPiece.match_len
      · rw [if_neg (by simp [lengths]), left, lengths, right]
        simp
      · have apart : (pieces delim oldstr)[k] ≠ (pieces delim newstr)[k] := by
          intro same
          apply lengths
          rw [← bytesAt_length left, ← bytesAt_length right, same]
        rw [if_pos (.inr lengths)]
        simp [apart]

/-- Ranges that follow each other, behind a number. -/
def AscendingFrom : Nat → List gtm_num_range_t → Prop
  | _, [] => True
  | before, range :: ranges => before < range.min ∧ range.min ≤ range.max ∧ AscendingFrom range.max ranges

/-- The piece is asked for. -/
def Wanted (ranges : List gtm_num_range_t) (k : Nat) : Prop := ∃ range ∈ ranges, range.min ≤ k ∧ k ≤ range.max

theorem Wanted.above {before : Nat} {ranges : List gtm_num_range_t} (ascending : AscendingFrom before ranges)
    (wanted : Wanted ranges k) : before < k := by
  induction ranges generalizing before with
  | nil =>
    obtain ⟨_, none, -⟩ := wanted
    cases none
  | cons range ranges ih =>
    obtain ⟨first, order, others⟩ := ascending
    obtain ⟨range', member, low, high⟩ := wanted
    cases member with
    | head => omega
    | tail _ member =>
      have later := ih others ⟨range', member, low, high⟩
      omega

theorem wanted_cons (range : gtm_num_range_t) (ranges : List gtm_num_range_t) :
    Wanted (range :: ranges) k ↔ (range.min ≤ k ∧ k ≤ range.max) ∨ Wanted ranges k := by
  simp [Wanted]

theorem wanted_single (n : Nat) (ranges : List gtm_num_range_t) :
    Wanted (⟨n, n⟩ :: ranges) k ↔ k = n ∨ Wanted ranges k := by
  rw [wanted_cons]
  have same : n ≤ k ∧ k ≤ n ↔ k = n := by omega
  exact or_congr_left same

theorem wanted_step {least most : Nat} (more : least < most) (ranges : List gtm_num_range_t) :
    Wanted (⟨least, most⟩ :: ranges) k ↔ k = least ∨ Wanted (⟨least + 1, most⟩ :: ranges) k := by
  rw [wanted_cons, wanted_cons, ← or_assoc]
  have same : least ≤ k ∧ k ≤ most ↔ k = least ∨ least + 1 ≤ k ∧ k ≤ most := by omega
  exact or_congr_left same

/-- The list of the wanted pieces that differ, in order. -/
structure Differences (delim oldstr newstr : List UInt8) (ranges : List gtm_num_range_t) (ks : List Nat) :
    Prop where
  ascending : ks.Pairwise (· < ·)
  exactly : ∀ k, k ∈ ks ↔ Wanted ranges k ∧ (pieces delim oldstr)[k - 1]? ≠ (pieces delim newstr)[k - 1]?

/-- Where neither string has pieces, none differ. -/
theorem Differences.none {ranges : List gtm_num_range_t}
    (beyond : ∀ k, Wanted ranges k → (pieces delim oldstr).length < k ∧ (pieces delim newstr).length < k) :
    Differences delim oldstr newstr ranges [] where
  ascending := .nil
  exactly k := by
    constructor
    · nofun
    · rintro ⟨wanted, apart⟩
      obtain ⟨oldEnd, newEnd⟩ := beyond k wanted
      rw [List.getElem?_eq_none (by omega), List.getElem?_eq_none (by omega)] at apart
      exact absurd rfl apart

/-- The first wanted piece, and the others. -/
theorem Differences.first {ranges rest : List gtm_num_range_t} {ks : List Nat} (least : Nat)
    (others : Differences delim oldstr newstr rest ks)
    (split : ∀ k, Wanted ranges k ↔ k = least ∨ Wanted rest k) (above : ∀ k, Wanted rest k → least < k) :
    Differences delim oldstr newstr ranges
      (if (pieces delim oldstr)[least - 1]? ≠ (pieces delim newstr)[least - 1]? then least :: ks else ks) := by
  have higher : ∀ k ∈ ks, least < k := fun k member => above k ((others.exactly k).mp member).1
  by_cases apart : (pieces delim oldstr)[least - 1]? ≠ (pieces delim newstr)[least - 1]?
  · rw [if_pos apart]
    refine ⟨.cons higher others.ascending, fun k => ?_⟩
    rw [List.mem_cons, others.exactly k, split k]
    constructor
    · rintro (rfl | ⟨wanted, differ⟩)
      · exact ⟨.inl rfl, apart⟩
      · exact ⟨.inr wanted, differ⟩
    · rintro ⟨rfl | wanted, differ⟩
      · exact .inl rfl
      · exact .inr ⟨wanted, differ⟩
  · rw [if_neg apart]
    refine ⟨others.ascending, fun k => ?_⟩
    rw [others.exactly k, split k]
    constructor
    · rintro ⟨wanted, differ⟩
      exact ⟨.inr wanted, differ⟩
    · rintro ⟨rfl | wanted, differ⟩
      · exact absurd differ apart
      · exact ⟨wanted, differ⟩

/-- To skip to a piece, if any have to be skipped. -/
theorem skip_spec (some : delim ≠ []) {curpiece nextmin : Nat} (start : 0 < curpiece) (order : curpiece ≤ nextmin)
    (at_ : ScanAt delim str scan curpiece) :
    ∃ scan', skipTo delim str scan (nextmin - curpiece) = .some scan' ∧ ScanAt delim str scan' nextmin := by
  rw [skipTo]
  by_cases skip : nextmin - curpiece = 0
  · have same : nextmin = curpiece := by omega
    rw [if_neg (not_not_intro skip), same]
    exact ⟨scan, rfl, at_⟩
  · obtain ⟨scan', run, at'⟩ := SKIP_PIECES_spec some start at_ (Nat.pos_of_ne_zero skip)
    have there : curpiece + (nextmin - curpiece) = nextmin := by omega
    rw [there] at at'
    rw [if_pos skip]
    exact ⟨scan', run, at'⟩

/-- The loop finds the pieces that differ. -/
theorem pieceDiffLoop_spec (some : delim ≠ []) {turns curpiece nextmin nextmax : Nat}
    {piecearray : List gtm_num_range_t} (oldAt : ScanAt delim oldstr old curpiece)
    (newAt : ScanAt delim newstr new curpiece) (start : 0 < curpiece) (order : curpiece ≤ nextmin)
    (range : nextmin ≤ nextmax) (ascending : AscendingFrom nextmax piecearray) (turn : 0 < turns)
    (enough : (pieces delim oldstr).length + (pieces delim newstr).length + 2 ≤ turns + curpiece)
    {done : List Nat} (positive : ∀ k ∈ done, 0 < k) :
    ∃ ks, pieceDiffLoop delim oldstr newstr turns old new curpiece nextmin nextmax piecearray
        (commaSeparated done) = .some (commaSeparated (done ++ ks)) ∧
      Differences delim oldstr newstr (⟨nextmin, nextmax⟩ :: piecearray) ks := by
  induction turns generalizing old new curpiece nextmin nextmax piecearray done with
  | zero => exact absurd turn (Nat.lt_irrefl 0)
  | succ turns ih =>
    -- every wanted piece is at `nextmin` or behind it
    have later : ∀ k, Wanted (⟨nextmin, nextmax⟩ :: piecearray) k → nextmin ≤ k := by
      intro k wanted
      have all : AscendingFrom (nextmin - 1) (⟨nextmin, nextmax⟩ :: piecearray) :=
        And.intro (by dsimp only; omega) (And.intro range ascending)
      have above := wanted.above all
      omega
    have finished (oldEnd : (pieces delim oldstr).length < nextmin)
        (newEnd : (pieces delim newstr).length < nextmin) :
        Differences delim oldstr newstr (⟨nextmin, nextmax⟩ :: piecearray) [] := by
      apply Differences.none
      intro k wanted
      have behind := later k wanted
      omega
    rw [pieceDiffLoop]
    by_cases ended : old.end_seen = true ∧ new.end_seen = true
    · have oldEnd := oldAt.closed ended.1
      have newEnd := newAt.closed ended.2
      rw [if_pos ended]
      exact ⟨[], by rw [List.append_nil], finished (by omega) (by omega)⟩
    rw [if_neg ended]
    obtain ⟨old₁, oldSkip, oldAt₁⟩ := skip_spec some start order oldAt
    obtain ⟨new₁, newSkip, newAt₁⟩ := skip_spec some start order newAt
    change ∃ ks, ((skipTo delim oldstr old (nextmin - curpiece)).bind fun old => _) = _ ∧ _
    rw [oldSkip]
    change ∃ ks, ((skipTo delim newstr new (nextmin - curpiece)).bind fun new => _) = _ ∧ _
    rw [newSkip]
    change ∃ ks, (if nextmin - curpiece ≠ 0 ∧ old₁.end_seen = true ∧ new₁.end_seen = true then _ else _) = _ ∧ _
    by_cases ended₁ : nextmin - curpiece ≠ 0 ∧ old₁.end_seen = true ∧ new₁.end_seen = true
    · rw [if_pos ended₁]
      exact ⟨[], by rw [List.append_nil], finished (oldAt₁.closed ended₁.2.1) (newAt₁.closed ended₁.2.2)⟩
    obtain ⟨k, rfl⟩ : ∃ k, nextmin = k + 1 := ⟨nextmin - 1, by omega⟩
    obtain ⟨old₂, oldPiece, oldRun, oldPtr, oldAt₂, oldExists, oldNot⟩ := MATCH_CURPIECE_spec some oldAt₁
    obtain ⟨new₂, newPiece, newRun, newPtr, newAt₂, newExists, newNot⟩ := MATCH_CURPIECE_spec some newAt₁
    rw [if_neg ended₁, oldRun]
    change ∃ ks, ((MATCH_CURPIECE delim newstr new₁).bind fun matched => _) = _ ∧ _
    rw [newRun]
    change ∃ ks, (if oldPiece.piece_exists = false ∧ newPiece.piece_exists = false then _ else _) = _ ∧ _
    by_cases neither : oldPiece.piece_exists = false ∧ newPiece.piece_exists = false
    · have oldEnd := oldNot neither.1
      have newEnd := newNot neither.2
      rw [if_pos neither]
      exact ⟨[], by rw [List.append_nil], finished (by omega) (by omega)⟩
    rw [← oldPtr] at oldExists
    rw [← newPtr] at newExists
    rw [if_neg neither, piecesDiffer_spec oldExists newExists oldNot newNot neither]
    -- the list with this piece, if it differs
    have added : ∃ now, (∀ i ∈ now, 0 < i) ∧
        (if decide ((pieces delim oldstr)[k]? ≠ (pieces delim newstr)[k]?) = true then
          addPiece (commaSeparated done) (k + 1) else commaSeparated done) = commaSeparated (done ++ now) ∧
        ∀ ks, now ++ ks = if (pieces delim oldstr)[k]? ≠ (pieces delim newstr)[k]? then (k + 1) :: ks else ks := by
      by_cases apart : (pieces delim oldstr)[k]? ≠ (pieces delim newstr)[k]?
      · refine ⟨[k + 1], fun i member => ?_, ?_, fun ks => ?_⟩
        · rw [List.mem_singleton.mp member]
          exact Nat.succ_pos k
        · rw [decide_eq_true apart, if_pos rfl, addPiece_eq positive (Nat.succ_pos k)]
        · rw [if_pos apart]
          rfl
      · refine ⟨[], nofun, ?_, fun ks => ?_⟩
        · rw [decide_eq_false apart, if_neg (by decide), List.append_nil]
        · rw [if_neg apart]
          rfl
    obtain ⟨now, nowPositive, nowListed, nowFirst⟩ := added
    have positive' : ∀ i ∈ done ++ now, 0 < i := by
      intro i member
      exact (List.mem_append.mp member).elim (positive i) (nowPositive i)
    simp only [Option.bind_eq_bind, Option.bind_some]
    rw [nowListed]
    have present : k < (pieces delim oldstr).length ∨ k < (pieces delim newstr).length := by
      cases oldHere : oldPiece.piece_exists with
      | true => exact .inl (oldExists oldHere).2
      | false =>
        cases newHere : newPiece.piece_exists with
        | true => exact .inr (newExists newHere).2
        | false => exact absurd ⟨oldHere, newHere⟩ neither
    by_cases last : k + 1 = nextmax
    · subst last
      rw [if_pos rfl]
      have split := fun i => wanted_single (k := i) (k + 1) piecearray
      have above := fun i => Wanted.above (k := i) ascending
      cases piecearray with
      | nil =>
        have nothing : Differences delim oldstr newstr [] [] := .none fun i ⟨_, member, _⟩ => nomatch member
        have whole := nothing.first (k + 1) split above
        rw [Nat.add_sub_cancel, ← nowFirst, List.append_nil] at whole
        exact ⟨now, rfl, whole⟩
      | cons range' piecearray =>
        obtain ⟨next, order', ascending'⟩ := ascending
        obtain ⟨ks, run, others⟩ := ih oldAt₂ newAt₂ (Nat.succ_pos _) next order' ascending'
          (by omega) (by omega) positive'
        have whole := others.first (k + 1) split above
        rw [Nat.add_sub_cancel, ← nowFirst] at whole
        exact ⟨now ++ ks, by rw [← List.append_assoc]; exact run, whole⟩
    · have more : k + 1 < nextmax := by omega
      rw [if_neg last]
      obtain ⟨ks, run, others⟩ := ih oldAt₂ newAt₂ (Nat.succ_pos _) (Nat.le_refl (k + 2)) more
        ascending (by omega) (by omega) positive'
      have whole := others.first (k + 1) (fun i => wanted_step more piecearray) fun i wanted => by
        have all : AscendingFrom (k + 1) (⟨k + 1 + 1, nextmax⟩ :: piecearray) :=
          And.intro (Nat.lt_succ_self (k + 1)) (And.intro more ascending)
        exact wanted.above all
      rw [Nat.add_sub_cancel, ← nowFirst] at whole
      exact ⟨now ++ ks, by rw [← List.append_assoc]; exact run, whole⟩

theorem ScanAt.start (some : delim ≠ []) (str : List UInt8) : ScanAt delim str ⟨0, str.length, false⟩ 1 where
  inside := by
    dsimp only
    omega
  open_ _ := ⟨Nat.zero_add _, List.length_pos_iff.mpr (pieces_ne_nil some str), rfl⟩
  closed := nofun

/-- There are no more pieces than bytes, and one. -/
theorem pieces_length_le (some : delim ≠ []) (str : List UInt8) : (pieces delim str).length ≤ str.length + 1 := by
  induction size : str.length using Nat.strongRecOn generalizing str with
  | ind size ih =>
    cases found : cut delim str with
    | none =>
      rw [pieces_of_none found, List.length_singleton]
      omega
    | some parts =>
      obtain ⟨front, back⟩ := parts
      have shorter := cut_length some found
      have others := ih back.length (by omega) back rfl
      rw [pieces_of_some some found, List.length_cons]
      omega

/-- All pieces, if no ranges are given. -/
def rangesOf : List gtm_num_range_t → List gtm_num_range_t
  | [] => [⟨1, MAXPOSINT4⟩]
  | ranges => ranges

/-- The list has exactly the pieces in the ranges that differ, in ascending order. -/
theorem strpiecediff_differences {delim : List UInt8} (some : delim ≠ []) (oldstr newstr : List UInt8)
    {piecearray : List gtm_num_range_t} (ascending : AscendingFrom 0 piecearray) :
    ∃ ks, strpiecediff oldstr newstr delim piecearray = .some (commaSeparated ks) ∧ ks.Pairwise (· < ·) ∧
      ∀ k, k ∈ ks ↔ (∃ range ∈ rangesOf piecearray, range.min ≤ k ∧ k ≤ range.max) ∧
        (pieces delim oldstr)[k - 1]? ≠ (pieces delim newstr)[k - 1]? := by
  have oldPieces := pieces_length_le some oldstr
  have newPieces := pieces_length_le some newstr
  have positive : ∀ k ∈ ([] : List Nat), 0 < k := nofun
  have turn : 0 < oldstr.length + newstr.length + 3 := by omega
  have enough : (pieces delim oldstr).length + (pieces delim newstr).length + 2 ≤
      oldstr.length + newstr.length + 3 + 1 := by omega
  have run {least most : Nat} {ranges : List gtm_num_range_t} (first : 1 ≤ least) (order : least ≤ most)
      (others : AscendingFrom most ranges) :=
    pieceDiffLoop_spec some (.start some oldstr) (.start some newstr) Nat.one_pos first order others turn
      enough positive
  have empty : commaSeparated [] = [] := rfl
  rw [empty] at run
  cases piecearray with
  | nil =>
    have least : 1 ≤ MAXPOSINT4 := by decide
    have nothing : AscendingFrom MAXPOSINT4 [] := trivial
    obtain ⟨ks, returned, differences⟩ := run (Nat.le_refl 1) least nothing
    rw [List.nil_append] at returned
    exact ⟨ks, returned, differences.ascending, differences.exactly⟩
  | cons range ranges =>
    obtain ⟨first, order, others⟩ := ascending
    obtain ⟨ks, returned, differences⟩ := run first order others
    rw [List.nil_append] at returned
    exact ⟨ks, returned, differences.ascending, differences.exactly⟩

/-- Two strings that differ behind a shared piece. -/
theorem strpiecediff_differences_small :
    ∃ ks, strpiecediff [65, 94, 66] [65, 94] [94] [⟨2, 5⟩] = .some (commaSeparated ks) ∧
      ks.Pairwise (· < ·) ∧
      ∀ k, k ∈ ks ↔ (∃ range ∈ rangesOf [⟨2, 5⟩], range.min ≤ k ∧ k ≤ range.max) ∧
        (pieces [(94 : UInt8)] [65, 94, 66])[k - 1]? ≠ (pieces [94] [65, 94])[k - 1]? := by
  have ascending : AscendingFrom 0 [⟨2, 5⟩] := And.intro Nat.two_pos (And.intro (by decide : 2 ≤ 5) trivial)
  exact strpiecediff_differences (List.cons_ne_nil 94 []) [65, 94, 66] [65, 94] ascending

end Ydb
