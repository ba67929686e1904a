import Ydb.TreeCollation
import Ydb.TreePrevious

/-!
# Loops over a tree, backwards

Each turn of a $ZPREVIOUS loop searches from the key that the last one has returned. From the empty string the loop
begins at the highest key that fits the key buffer, which is behind all keys of the level.
-/

namespace Ydb.GlobalTree

open Lib BlockUpdate

/-- Replace the last subscript with the highest one that fits a key buffer of `keysize` bytes. -/
def gv_append_max_subs_key (keysize : Nat) (gvkey : KeyBuffer) : KeyBuffer :=
  let lastsubslen := keysize - gvkey.prev - 2
  { gvkey with
    base := gvkey.base.store gvkey.prev (List.replicate lastsubslen STR_SUB_MAXVAL ++ [KEY_DELIMITER, KEY_DELIMITER])
    end_ := gvkey.prev + lastsubslen + 1 }

/-- The key that `op_zprevious` searches for. -/
def zpreviousKey (keysize : Nat) (gv_last_subsc_null : Bool) (gv_currkey : KeyBuffer) : KeyBuffer :=
  if gv_last_subsc_null then gv_append_max_subs_key keysize gv_currkey else gv_currkey

/-- The keys that $ZPREVIOUS returns, one after the other. Only the first search may be from behind all nodes. Each
search starts at the root and uses no clue. -/
def zpreviousLoop (db : Database) (root : Nat) : Nat → Bool → KeyBuffer → KeyBuffer → Option (List (List UInt8))
  | 0, _, _, _ => none
  | turns + 1, first_level_null, gv_altkey, gv_currkey =>
    match gvcst_zprevious2 db first_level_null gv_altkey gv_currkey root with
    | .error _ => none
    | .ok (false, _) => some []
    | .ok (true, gv_altkey) =>
      (zpreviousLoop db root turns false gv_altkey { gv_altkey with prev := gv_currkey.prev }).map (gv_altkey.bytes :: ·)

variable {db : Database} {root : Nat} {nodes : List Node} {gv_altkey gv_currkey : KeyBuffer} {q u : List UInt8}

/-- A $ZPREVIOUS loop visits the subscripts of a level below the one of the search, each once and from the highest
on. -/
theorem zpreviousLoop_visits (tree : TreeHolds db root nodes) (target : WellFormedTarget gv_currkey)
    (room : MAX_KEY_SZ ≤ gv_altkey.top) (short : ∀ n ∈ nodes, n.key.length ≤ MAX_KEY_SZ)
    (prev : gv_currkey.prev = q.length) (level : EndsLevel q) (search : gv_currkey.bytes = q ++ u ++ [0, 0])
    (nonzero : ∀ c ∈ u, c ≠ 0) (some : u ≠ []) {turns : Nat}
    (enough : (nodes.filter fun n => n.key < gv_currkey.bytes).length < turns) :
    ∃ subscripts : List (List UInt8), zpreviousLoop db root turns false gv_altkey gv_currkey =
        .some (subscripts.map fun s => q ++ s ++ [0, 0]) ∧ (subscripts.Pairwise fun a b => b < a) ∧
      ∀ s, s ∈ subscripts ↔ s ≠ [] ∧ s < u ∧ ∃ n ∈ nodes, HasSubscript q s n.key := by
  induction turns generalizing gv_altkey gv_currkey u with
  | zero => exact absurd enough (Nat.not_lt_zero _)
  | succ turns ih =>
    rw [zpreviousLoop]
    cases gvcst_zprevious2_level tree target room prev level search nonzero some with
    | inl none =>
      obtain ⟨altkey, result, beyond⟩ := none
      refine ⟨[], by rw [result]; rfl, .nil, ?_⟩
      intro s
      constructor
      · exact fun impossible => absurd impossible List.not_mem_nil
      · intro found
        obtain ⟨some', less, n, member, has⟩ := found
        exact absurd less (beyond n member s some' has)
    | inr found =>
      obtain ⟨node, altkey, s, member, has, some', less, result, bytes, top, highest⟩ := found
      obtain ⟨grammar, count⟩ := has.wellFormed some' (tree.grammar node member)
      have long := short node member
      have target' : WellFormedTarget { altkey with prev := gv_currkey.prev } := by
        refine ⟨?_, ?_⟩
        · change WellFormedKey altkey.bytes
          rw [bytes]
          exact grammar
        · change altkey.bytes.length ≤ MAX_KEY_SZ
          rw [bytes]
          omega
      -- the node of the subscript is not below the next search
      have below : q ++ s ++ [0, 0] < q ++ u ++ [0, 0] := by
        rw [List.append_assoc, List.append_assoc]
        exact append_lt_append ((append_zero_lt has.nonzero nonzero).mpr (.inl less))
      have fewer : (nodes.filter fun n => n.key < q ++ s ++ [0, 0]).length < turns := by
        have inside : (nodes.filter fun n => n.key < q ++ s ++ [0, 0]) =
            (nodes.filter fun n => n.key < q ++ u ++ [0, 0]).filter fun n => n.key < q ++ s ++ [0, 0] := by
          rw [List.filter_filter]
          apply List.filter_congr
          intro n _
          by_cases lower : n.key < q ++ s ++ [0, 0]
          · rw [decide_eq_true lower, decide_eq_true (List.lt_trans lower below)]
            rfl
          · rw [decide_eq_false lower]
            rfl
        have dropped : ∃ n ∈ nodes.filter fun n => n.key < q ++ u ++ [0, 0], ¬ decide (n.key < q ++ s ++ [0, 0]) = true := by
          refine ⟨node, List.mem_filter.mpr ⟨member, ?_⟩, ?_⟩
          · exact decide_eq_true ((has.lt_iff some' (tree.grammar node member) nonzero).mpr less)
          · intro lower
            have impossible := (has.lt_iff some' (tree.grammar node member) has.nonzero).mp (of_decide_eq_true lower)
            exact List.lt_irrefl _ impossible
        have smaller := List.length_filter_lt_length_iff_exists.mpr dropped
        rw [search] at enough
        rw [inside]
        omega
      obtain ⟨subscripts, rest, sorted, members⟩ := @ih altkey { altkey with prev := gv_currkey.prev }
        s target' (top ▸ room) prev bytes has.nonzero some' (by
          change (nodes.filter fun n => n.key < altkey.bytes).length < turns
          rw [bytes]
          exact fewer)
      refine ⟨s :: subscripts, ?_, ?_, ?_⟩
      · rw [result]
        dsimp only
        rw [rest, bytes]
        rfl
      · exact List.pairwise_cons.mpr ⟨fun s' later => ((members s').mp later).2.1, sorted⟩
      · intro s'
        rw [List.mem_cons, members s']
        constructor
        · intro one
          cases one with
          | inl same => exact same ▸ ⟨some', less, node, member, has⟩
          | inr later => exact ⟨later.1, List.lt_trans later.2.1 less, later.2.2⟩
        · intro visited
          obtain ⟨some'', lower, n, inside, has'⟩ := visited
          have notAbove := highest n inside s' some'' has' lower
          by_cases same : s' = s
          · exact .inl same
          · right
            refine ⟨some'', ?_, n, inside, has'⟩
            by_contra notBelow
            exact same (List.le_antisymm (List.not_lt.mp notAbove) (List.not_lt.mp notBelow))

/-- The loop from behind all nodes. -/
theorem zpreviousLoop_skip (tree : TreeHolds db root nodes) (target : WellFormedTarget gv_currkey)
    (room : MAX_KEY_SZ ≤ gv_altkey.top) (less : ∀ n ∈ nodes, n.key < gv_currkey.bytes) (turns : Nat) :
    zpreviousLoop db root turns true gv_altkey gv_currkey = zpreviousLoop db root turns false gv_altkey gv_currkey := by
  cases turns with
  | zero => rfl
  | succ turns => rw [zpreviousLoop, zpreviousLoop, gvcst_zprevious2_skip tree target room less]

/-! ## The highest subscript -/

section Highest

variable {keysize : Nat}

theorem lt_replicate {u : List UInt8} {n : Nat} (short : u.length < n) : u < List.replicate n STR_SUB_MAXVAL := by
  induction n generalizing u with
  | zero => exact absurd short (Nat.not_lt_zero _)
  | succ n ih =>
    rw [List.replicate_succ]
    cases u with
    | nil => exact List.nil_lt_cons _ _
    | cons c u =>
      have rest := ih (Nat.lt_of_succ_lt_succ short)
      by_cases full : c = STR_SUB_MAXVAL
      · exact List.cons_lt_cons_iff.mpr (.inr ⟨full, rest⟩)
      · apply List.cons_lt_cons_iff.mpr
        left
        have bound := c.toNat_lt
        have other : c.toNat ≠ 255 := fun same => full (UInt8.toNat_inj.mp same)
        rw [UInt8.lt_iff_toNat_lt]
        change c.toNat < 255
        omega

theorem isChain_nonzero (nonzero : ∀ c ∈ u, c ≠ 0) : (u ++ [KEY_DELIMITER]).IsChain NotBothDelimiters := by
  induction u with
  | nil => exact .singleton _
  | cons c u ih =>
    have rest := ih fun b member => nonzero b (List.mem_cons_of_mem _ member)
    cases u with
    | nil => exact .cons_cons (.inl (nonzero c List.mem_cons_self)) (.singleton _)
    | cons d u => exact .cons_cons (.inl (nonzero c List.mem_cons_self)) rest

/-- A key with another last subscript. -/
theorem wellFormed_level {v : List UInt8} (wellFormed : WellFormedKey (q ++ u ++ [0, 0])) (some : q ≠ [])
    (nonzero : ∀ c ∈ v, c ≠ 0) (some' : v ≠ []) : WellFormedKey (q ++ v ++ [0, 0]) := by
  obtain ⟨body, whole, chain⟩ := wellFormed.ends
  have same : q ++ u = body := List.append_cancel_right whole
  refine ⟨?_, q ++ v, rfl, ?_⟩
  · have starts := wellFormed.starts
    cases q with
    | nil => exact absurd rfl some
    | cons c q => exact starts
  · rw [← same, List.append_assoc] at chain
    rw [List.append_assoc]
    apply (List.isChain_append.mp chain).1.append (isChain_nonzero nonzero)
    intro a _ b next
    cases v with
    | nil => exact absurd rfl some'
    | cons c v =>
      obtain rfl : c = b := Option.some.inj next
      exact .inr (nonzero c List.mem_cons_self)

theorem maxSubs_bytes (search : gv_currkey.bytes = q ++ u ++ [0, 0]) (prev : gv_currkey.prev = q.length) :
    (gv_append_max_subs_key keysize gv_currkey).bytes =
      q ++ List.replicate (keysize - q.length - 2) STR_SUB_MAXVAL ++ [0, 0] := by
  have width := gv_currkey.length_bytes
  have count : gv_currkey.bytes.length = q.length + u.length + 2 := by
    rw [search, List.length_append, List.length_append]
    rfl
  unfold gv_append_max_subs_key KeyBuffer.bytes
  dsimp only
  rw [prev]
  generalize keysize - q.length - 2 = k
  have parts : q.length + k + 1 + 1 = q.length + (k + 2) := by omega
  have written := ByteMemory.read_store gv_currkey.base q.length
    (List.replicate k STR_SUB_MAXVAL ++ [KEY_DELIMITER, KEY_DELIMITER])
  rw [List.length_append, List.length_replicate] at written
  change (gv_currkey.base.store q.length
    (List.replicate k STR_SUB_MAXVAL ++ [KEY_DELIMITER, KEY_DELIMITER])).read q.length (k + 2) = _ at written
  have front : gv_currkey.base.read 0 q.length = q := by
    have taken : gv_currkey.base.read 0 q.length = gv_currkey.bytes.take q.length := ByteMemory.read_take (by omega)
    rw [taken, search, List.append_assoc, List.take_left]
  rw [parts, ByteMemory.read_add, Nat.zero_add, written,
    ByteMemory.read_store_before (Nat.le_of_eq (Nat.zero_add _)), front, List.append_assoc]

end Highest

/-! ## Collation -/

section Collation

variable {std_null_coll gv_last_subsc_null : Bool} {name code : List UInt8} {pcodes : List (List UInt8)}
variable {ps ss : List Subscript} {s t : Subscript} {keysize : Nat} {key : List UInt8}

/-- What $ZPREVIOUS finds from a subscript on. From the empty string it finds every subscript. -/
def Precedes (std_null_coll : Bool) (s t : Subscript) : Prop := s = .null ∨ t.collate std_null_coll s = .lt

/-- The last subscript of the search. -/
def endCode (keysize prev : Nat) (gv_last_subsc_null : Bool) (code : List UInt8) : List UInt8 :=
  if gv_last_subsc_null then List.replicate (keysize - prev - 2) STR_SUB_MAXVAL else code

theorem levelBytes_ends (name : List UInt8) (pcodes : List (List UInt8)) : EndsLevel (levelBytes name pcodes) := by
  right
  cases List.eq_nil_or_concat pcodes with
  | inl empty => exact ⟨name, by rw [empty]; rfl⟩
  | inr parts =>
    obtain ⟨init, last, rfl⟩ := parts
    refine ⟨levelBytes name init ++ last, ?_⟩
    have one : keyBytes [last] = last ++ [KEY_DELIMITER] := List.append_nil _
    rw [levelBytes, levelBytes, List.concat_eq_append, keyBytes_append, one]
    simp only [List.append_assoc, List.cons_append]

theorem endCode_nonzero (coded : s.Code std_null_coll code) {prev : Nat} :
    ∀ c ∈ endCode keysize prev gv_last_subsc_null code, c ≠ 0 := by
  unfold endCode
  split
  · intro c member
    rw [List.eq_of_mem_replicate member]
    decide
  · exact coded.nonzero

theorem endCode_ne_nil (coded : s.Code std_null_coll code) {prev : Nat} (fits : prev + 2 < keysize) :
    endCode keysize prev gv_last_subsc_null code ≠ [] := by
  unfold endCode
  split
  · intro empty
    have length := congrArg List.length empty
    rw [List.length_replicate, List.length_nil] at length
    omega
  · exact code_ne_nil coded

theorem zpreviousKey_bytes (target : WellFormedTarget gv_currkey) (coded : s.Code std_null_coll code)
    (search : gv_currkey.bytes = levelBytes name pcodes ++ code ++ [0, 0])
    (prev : gv_currkey.prev = (levelBytes name pcodes).length) (fits : (levelBytes name pcodes).length + 2 < keysize)
    (small : keysize ≤ MAX_KEY_SZ) :
    WellFormedTarget (zpreviousKey keysize gv_last_subsc_null gv_currkey) ∧
      (zpreviousKey keysize gv_last_subsc_null gv_currkey).bytes = levelBytes name pcodes ++
        endCode keysize (levelBytes name pcodes).length gv_last_subsc_null code ++ [0, 0] ∧
      (zpreviousKey keysize gv_last_subsc_null gv_currkey).prev = (levelBytes name pcodes).length := by
  have nonzero := @endCode_nonzero std_null_coll gv_last_subsc_null code s keysize coded (levelBytes name pcodes).length
  have some := @endCode_ne_nil std_null_coll gv_last_subsc_null code s keysize coded _ fits
  have begins : levelBytes name pcodes ≠ [] := List.append_ne_nil_of_right_ne_nil _ (List.cons_ne_nil _ _)
  have grammar := @wellFormed_level (levelBytes name pcodes) code _ (search ▸ target.wellFormed) begins nonzero some
  unfold zpreviousKey endCode at *
  cases gv_last_subsc_null with
  | false => exact ⟨target, search, prev⟩
  | true =>
    have bytes := @maxSubs_bytes gv_currkey _ code keysize search prev
    refine ⟨⟨?_, ?_⟩, bytes, prev⟩
    · rw [if_pos rfl, bytes]
      exact grammar
    · rw [if_pos rfl, bytes, List.length_append, List.length_append, List.length_replicate]
      simp only [List.length_cons, List.length_nil]
      omega

/-- The codes that $ZPREVIOUS finds from a subscript on. -/
theorem end_lt_iff {other : List UInt8} {prev : Nat} (first : s.Code std_null_coll code)
    (isNull : gv_last_subsc_null = true ↔ s = .null) (coded : t.Code std_null_coll other)
    (short : prev + other.length + 2 < keysize) :
    other < endCode keysize prev gv_last_subsc_null code ↔ Precedes std_null_coll s t := by
  unfold endCode Precedes
  cases null : gv_last_subsc_null with
  | true =>
    rw [if_pos rfl]
    exact ⟨fun _ => .inl (isNull.mp null), fun _ => lt_replicate (by omega)⟩
  | false =>
    rw [if_neg Bool.false_ne_true, code_lt_iff coded first]
    refine ⟨.inr, ?_⟩
    intro precedes
    cases precedes with
    | inr order => exact order
    | inl same =>
      have impossible := isNull.mpr same
      rw [null] at impossible
      cases impossible

/-- All nodes of a global are below the highest key of the first level. -/
theorem coded_lt_highest (coded : CodedKey std_null_coll name ss key) (wellFormed : WellFormedKey key)
    (short : key.length < keysize) :
    key < levelBytes name [] ++ List.replicate (keysize - (levelBytes name []).length - 2) STR_SUB_MAXVAL ++ [0, 0] := by
  have nonzero : ∀ n, ∀ c ∈ List.replicate n STR_SUB_MAXVAL, c ≠ 0 := by
    intro n c member
    rw [List.eq_of_mem_replicate member]
    decide
  obtain ⟨codes, all, rfl⟩ := coded.coded
  cases all with
  | nil =>
    have bare : gdsBytes name [] = levelBytes name [] ++ [0] := by
      rw [gdsBytes, levelBytes]
      simp only [List.append_assoc, List.cons_append]
    rw [bare] at short ⊢
    rw [List.length_append, List.length_singleton] at short
    rw [List.append_assoc]
    apply append_lt_append
    cases count : keysize - (levelBytes name []).length - 2 with
    | zero => exact List.cons_lt_cons_iff.mpr (.inr ⟨rfl, List.nil_lt_cons _ _⟩)
    | succ n => exact List.cons_lt_cons_iff.mpr (.inl (by decide))
  | @cons t code ss codes first rest =>
    have coded' : CodedKey std_null_coll name (t :: ss) (gdsBytes name (code :: codes)) := ⟨_, .cons first rest, rfl⟩
    have has := (hasSubscript_iff coded' .nil (code_ne_nil first)).mpr ⟨t, ss, rfl, first⟩
    have count := (has.wellFormed (code_ne_nil first) wellFormed).2
    rw [List.length_append, List.length_append] at count
    simp only [List.length_cons, List.length_nil] at count
    exact (has.lt_iff (code_ne_nil first) wellFormed (nonzero _)).mpr (lt_replicate (by omega))

/-- A $ZPREVIOUS loop, searching without a clue, visits the subscripts of a level in front of a subscript, each once
and against the order in which they collate. -/
theorem zprevious_visits_collated (tree : TreeHolds db root nodes) (room : MAX_KEY_SZ ≤ gv_altkey.top)
    (small : keysize ≤ MAX_KEY_SZ) (short : ∀ n ∈ nodes, n.key.length < keysize)
    (keys : ∀ n ∈ nodes, ∃ ss, CodedKey std_null_coll name ss n.key)
    (level : List.Forall₂ (Subscript.Code std_null_coll) ps pcodes) (first : s.Code std_null_coll code)
    (isNull : gv_last_subsc_null = true ↔ s = .null) (target : WellFormedTarget gv_currkey)
    (fits : (levelBytes name pcodes).length + 2 < keysize)
    (search : gv_currkey.bytes = gdsBytes name (pcodes ++ [code]))
    (prev : gv_currkey.prev = (levelBytes name pcodes).length) {turns : Nat} (enough : nodes.length < turns) :
    ∃ (subscripts : List Subscript) (found : List (List UInt8)),
      List.Forall₂ (Subscript.Code std_null_coll) subscripts found ∧
      zpreviousLoop db root turns (gv_last_subsc_null && gv_currkey.prev == name.length + 1) gv_altkey
          (zpreviousKey keysize gv_last_subsc_null gv_currkey) =
        some (found.map fun code => gdsBytes name (pcodes ++ [code])) ∧
      (subscripts.Pairwise fun s t => t.collate std_null_coll s = .lt) ∧
      ∀ t, t ∈ subscripts ↔ Precedes std_null_coll s t ∧
        ∃ n ∈ nodes, ∃ rest, CodedKey std_null_coll name (ps ++ t :: rest) n.key := by
  rw [gdsBytes_last] at search
  obtain ⟨target', search', prev'⟩ := @zpreviousKey_bytes gv_currkey std_null_coll gv_last_subsc_null name code pcodes s
    keysize target first search prev fits small
  have nonzero := @endCode_nonzero std_null_coll gv_last_subsc_null code s keysize first (levelBytes name pcodes).length
  have some := @endCode_ne_nil std_null_coll gv_last_subsc_null code s keysize first _ fits
  have count := List.length_filter_le
    (fun n : Node => decide (n.key < (zpreviousKey keysize gv_last_subsc_null gv_currkey).bytes)) nodes
  obtain ⟨found, result, sorted, members⟩ := zpreviousLoop_visits tree target' room
    (fun n member => Nat.le_trans (Nat.le_of_lt (short n member)) small) prev' (levelBytes_ends name pcodes) search'
    nonzero some (Nat.lt_of_le_of_lt count enough)
  obtain ⟨subscripts, coded, visited⟩ := @visited_collated std_null_coll ps pcodes name nodes
    (fun u => u < endCode keysize (levelBytes name pcodes).length gv_last_subsc_null code) (Precedes std_null_coll s)
    found keys level (fun u member => ((members u).mp member).1)
    (fun u some => (members u).trans ⟨fun found => found.2, fun found => ⟨some, found⟩⟩) (by
      intro t u codedBy found
      obtain ⟨n, member, has⟩ := found
      have count := (has.wellFormed (code_ne_nil codedBy) (tree.grammar n member)).2
      have less := short n member
      rw [List.length_append, List.length_append] at count
      simp only [List.length_cons, List.length_nil] at count
      exact end_lt_iff first isNull codedBy (by omega))
  refine ⟨subscripts, found, coded, ?_, pairwise_codes coded sorted fun codedBy coded' => (code_lt_iff coded' codedBy).mp,
    visited⟩
  have plain : zpreviousLoop db root turns (gv_last_subsc_null && gv_currkey.prev == name.length + 1) gv_altkey
      (zpreviousKey keysize gv_last_subsc_null gv_currkey) =
        zpreviousLoop db root turns false gv_altkey (zpreviousKey keysize gv_last_subsc_null gv_currkey) := by
    cases skips : gv_last_subsc_null && gv_currkey.prev == name.length + 1 with
    | false => rfl
    | true =>
      obtain ⟨null, first'⟩ := Bool.and_eq_true_iff.mp skips
      have empty : pcodes = [] := by
        have same := beq_iff_eq.mp first'
        rw [prev, levelBytes, List.length_append, List.length_cons] at same
        have none : keyBytes pcodes = [] := List.length_eq_zero_iff.mp (by omega)
        cases pcodes with
        | nil => rfl
        | cons code pcodes =>
          rw [keyBytes_cons] at none
          exact absurd none (List.append_ne_nil_of_right_ne_nil _ (List.cons_ne_nil _ _))
      subst empty
      apply zpreviousLoop_skip tree target' room
      intro n member
      obtain ⟨ss, key⟩ := keys n member
      have below := coded_lt_highest key (tree.grammar n member) (short n member)
      rw [search']
      unfold endCode
      rw [if_pos null]
      exact below
  rw [plain, result]
  simp only [gdsBytes_last]

/-- The loop from the null subscript back finds all subscripts. -/
theorem zprevious_visits_collated_all : ∃ (subscripts : List Subscript) (found : List (List UInt8)),
    List.Forall₂ (Subscript.Code true) subscripts found ∧
    zpreviousLoop smallDatabase 1 4 (true && (smallGlobals [0x61, 0, 1, 0, 0]).gv_currkey.prev == 2)
        (smallGlobals []).gv_altkey (zpreviousKey 64 true (smallGlobals [0x61, 0, 1, 0, 0]).gv_currkey) =
      some (found.map fun code => gdsBytes [0x61] ([] ++ [code])) ∧
    (subscripts.Pairwise fun s t => t.collate true s = .lt) ∧
    ∀ t, t ∈ subscripts ↔ Precedes true .null t ∧
      ∃ n ∈ smallNodes ++ otherNodes, ∃ rest, CodedKey true [0x61] ([] ++ t :: rest) n.key := by
  have key : (smallGlobals [0x61, 0, 1, 0, 0]).gv_currkey.bytes = [0x61, 0, 1, 0, 0] := by decide
  have target : WellFormedTarget (smallGlobals [0x61, 0, 1, 0, 0]).gv_currkey :=
    ⟨key ▸ ⟨by decide, [0x61, 0, 1], rfl, by simp [NotBothDelimiters, KEY_DELIMITER]⟩, by decide⟩
  exact zprevious_visits_collated smallDatabase_holds (by decide) (by decide) (by decide) smallDatabase_coded .nil .null
    (by simp) target (by decide) (key.trans (by decide)) (by decide) (by decide)

end Collation

end Ydb.GlobalTree
