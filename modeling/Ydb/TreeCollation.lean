import Ydb.KeyPrinting
import Ydb.TreeLoops

/-!
# Subscripts in collation order

The keys of a global are its name and coded subscripts. No code is another one with a one behind it, so that the
search of a $ORDER loop never stands at a key; the loop visits the subscripts of a level in the order in which
they collate.
-/

namespace Ydb.GlobalTree

open Lib BlockUpdate

/-! ## Codes -/

/-- An escaped one has another byte behind it. -/
theorem escape_ne_one (bytes others : List UInt8) : escape others ≠ escape bytes ++ [1] := by
  have low : ∀ ch : UInt8, ¬ ch ≤ 1 → ch ≠ 1 := by
    intro ch high same
    exact high (same ▸ UInt8.le_refl _)
  induction bytes generalizing others with
  | nil =>
    intro same
    cases others with
    | nil => cases same
    | cons c others =>
      rw [escape, List.flatMap_cons, ← escape, escapeByte] at same
      split at same
      next => cases same
      next high => exact low c high (List.head_eq_of_cons_eq same)
  | cons b bytes ih =>
    intro same
    cases others with
    | nil =>
      rw [escape, escape, List.flatMap_cons, List.flatMap_nil] at same
      have lens := congrArg List.length same
      simp at lens
    | cons c others =>
      rw [escape, escape, List.flatMap_cons, List.flatMap_cons, ← escape, ← escape, escapeByte, escapeByte] at same
      split at same
      next =>
        split at same
        next => exact ih others (List.tail_eq_of_cons_eq (List.tail_eq_of_cons_eq same))
        next high => exact low b high (List.head_eq_of_cons_eq same).symm
      next high =>
        split at same
        next => exact low c high (List.head_eq_of_cons_eq same)
        next => exact ih others (List.tail_eq_of_cons_eq same)

/-- The last byte of the code of a decimal is not a one: it is not the code of a zero pair. -/
theorem decimal_code_ne_one (d : Decimal) (front : List UInt8) : d.code ≠ front ++ [1] := by
  intro same
  rw [Decimal.code] at same
  split at same
  next =>
    rw [List.map_append] at same
    have last := (List.append_inj' same rfl).2
    exact absurd last (by decide)
  next =>
    rw [Decimal.magnitudeCode] at same
    cases stripZeros_last (digits 100 9 d.mant) with
    | inl vacant =>
      obtain ⟨first, rest, pairs, _⟩ := d.pairs_head
      rw [Decimal.pairs, vacant] at pairs
      cases pairs
    | inr ends =>
      obtain ⟨kept, last, nonzero, pairs⟩ := ends
      have small := d.pairs_lt
      rw [Decimal.pairs, pairs] at same small
      rw [List.map_append, ← List.cons_append] at same
      have byte : pos_code.getD last 0 = 1 := List.head_eq_of_cons_eq (List.append_inj' same rfl).2
      have value := pos_code_toNat last (small last (by simp))
      rw [byte] at value
      change 1 = last / 10 * 16 + last % 10 + 1 at value
      omega

variable {std_null_coll : Bool} {s t : Subscript} {code other : List UInt8}

/-- No code is another one with a one behind it. -/
theorem code_ne_one (coded : s.Code std_null_coll code) (otherCoded : t.Code std_null_coll other) :
    other ≠ code ++ [1] := by
  intro same
  obtain ⟨first, rest, head, positive⟩ := coded.head
  cases otherCoded with
  | null =>
    rw [head] at same
    have lens := congrArg List.length same
    simp at lens
  | zero =>
    rw [head] at same
    have lens := congrArg List.length same
    simp at lens
  | decimal d inRange => exact decimal_code_ne_one d _ same
  | string bytes some =>
    cases coded with
    | null =>
      cases std_null_coll with
      | true => exact absurd (List.head_eq_of_cons_eq same) (by decide)
      | false => exact escape_ne_one [] bytes (List.tail_eq_of_cons_eq same)
    | zero => exact absurd (List.head_eq_of_cons_eq same) (by decide)
    | decimal d inRange =>
      obtain ⟨first', rest', head', range⟩ := d.code_head inRange
      rw [head'] at same
      have prefixByte : STR_SUB_PREFIX = first' := List.head_eq_of_cons_eq same
      rw [← prefixByte] at range
      have big : STR_SUB_PREFIX.toNat = 255 := rfl
      split at range <;> omega
    | string bytes' some' => exact escape_ne_one bytes' bytes (List.tail_eq_of_cons_eq same)

theorem lt_of_append_zero {a b : List UInt8} (nonzero : ∀ ch ∈ a, ch ≠ 0) (less : a ++ [0] < b ++ [0]) : a < b := by
  induction a generalizing b with
  | nil =>
    cases b with
    | nil => exact absurd less (List.lt_irrefl _)
    | cons c b => exact List.nil_lt_cons _ _
  | cons x a ih =>
    cases b with
    | nil =>
      cases List.cons_lt_cons_iff.mp less with
      | inl impossible => exact absurd impossible UInt8.not_lt_zero
      | inr impossible => exact absurd impossible.1 (nonzero x List.mem_cons_self)
    | cons c b =>
      cases List.cons_lt_cons_iff.mp less with
      | inl smaller => exact List.cons_lt_cons_iff.mpr (.inl smaller)
      | inr same =>
        have rest := ih (fun ch member => nonzero ch (List.mem_cons_of_mem _ member)) same.2
        exact List.cons_lt_cons_iff.mpr (.inr ⟨same.1, rest⟩)

theorem lt_of_diverges {a b : List UInt8} (diverges : Diverges a b) : a < b := by
  induction diverges with
  | here smaller => exact List.cons_lt_cons_iff.mpr (.inl smaller)
  | later _ ih => exact List.cons_lt_cons_iff.mpr (.inr ⟨rfl, ih⟩)

/-- Codes are in the order in which their subscripts collate. -/
theorem code_lt_iff (coded : s.Code std_null_coll code) (otherCoded : t.Code std_null_coll other) :
    code < other ↔ s.collate std_null_coll t = .lt := by
  constructor
  · intro less
    cases order : s.collate std_null_coll t with
    | lt => rfl
    | eq =>
      obtain rfl := Subscript.collate_eq order
      rw [coded.unique otherCoded] at less
      exact absurd less (List.lt_irrefl _)
    | gt =>
      have swapped : t.collate std_null_coll s = .lt := by
        rw [Subscript.collate_swap, order]
        rfl
      have greater := lt_of_append_zero otherCoded.nonzero (lt_of_diverges (otherCoded.diverges coded swapped))
      exact absurd (List.lt_trans less greater) (List.lt_irrefl _)
  · intro order
    exact lt_of_append_zero coded.nonzero (lt_of_diverges (coded.diverges otherCoded order))

/-- Subscripts and codes determine each other. -/
theorem code_biUnique : Relator.BiUnique (Subscript.Code std_null_coll) := by
  refine ⟨?_, fun _ _ _ coded otherCoded => coded.unique otherCoded⟩
  intro s t code coded otherCoded
  have irreflexive := List.lt_irrefl code
  cases order : s.collate std_null_coll t with
  | lt => exact absurd ((code_lt_iff coded otherCoded).mpr order) irreflexive
  | eq => exact Subscript.collate_eq order
  | gt =>
    have swapped : t.collate std_null_coll s = .lt := by
      rw [Subscript.collate_swap, order]
      rfl
    exact absurd ((code_lt_iff otherCoded coded).mpr swapped) irreflexive

/-! ## The subscripts of a key -/

/-- A key of a global with its subscripts. -/
structure CodedKey (std_null_coll : Bool) (name : List UInt8) (ss : List Subscript) (key : List UInt8) : Prop where
  coded : ∃ codes, List.Forall₂ (Subscript.Code std_null_coll) ss codes ∧ key = gdsBytes name codes

/-- What the keys of a level begin with. -/
def levelBytes (name : List UInt8) (codes : List (List UInt8)) : List UInt8 :=
  name ++ KEY_DELIMITER :: keyBytes codes

variable {ss ps : List Subscript} {codes pcodes : List (List UInt8)} {name : List UInt8}

theorem keyBytes_cons (code : List UInt8) (codes : List (List UInt8)) :
    keyBytes (code :: codes) = code ++ KEY_DELIMITER :: keyBytes codes := by
  rw [keyBytes, List.flatMap_cons, List.append_assoc]
  rfl

theorem keyBytes_append (codes others : List (List UInt8)) :
    keyBytes (codes ++ others) = keyBytes codes ++ keyBytes others :=
  List.flatMap_append

theorem prefix_split {a b x y : List UInt8} (nonzero : ∀ ch ∈ a, ch ≠ 0) (nonzero' : ∀ ch ∈ b, ch ≠ 0)
    (begins : a ++ 0 :: x <+: b ++ 0 :: y) : a = b ∧ x <+: y := by
  induction a generalizing b with
  | nil =>
    cases b with
    | nil => exact ⟨rfl, (List.cons_prefix_cons.mp begins).2⟩
    | cons c b => exact absurd (List.cons_prefix_cons.mp begins).1.symm (nonzero' c List.mem_cons_self)
  | cons d a ih =>
    cases b with
    | nil => exact absurd (List.cons_prefix_cons.mp begins).1 (nonzero d List.mem_cons_self)
    | cons c b =>
      obtain ⟨rfl, rest⟩ := List.cons_prefix_cons.mp begins
      obtain ⟨rfl, behind⟩ := ih (fun ch member => nonzero ch (List.mem_cons_of_mem _ member))
        (fun ch member => nonzero' ch (List.mem_cons_of_mem _ member)) rest
      exact ⟨rfl, behind⟩

/-- A subscript behind those of a level is coded. -/
theorem keyBytes_subscript {u : List UInt8} (coded : List.Forall₂ (Subscript.Code std_null_coll) ss codes)
    (level : List.Forall₂ (Subscript.Code std_null_coll) ps pcodes) (nonzero : ∀ ch ∈ u, ch ≠ 0) (some : u ≠ [])
    (begins : keyBytes pcodes ++ u ++ [0] <+: keyBytes codes ++ [0]) :
    ∃ t rest, ss = ps ++ t :: rest ∧ t.Code std_null_coll u := by
  induction level generalizing ss codes with
  | nil =>
    cases coded with
    | nil =>
      have count := begins.length_le
      have positive := List.length_pos_iff.mpr some
      simp only [keyBytes, List.flatMap_nil, List.nil_append, List.length_append, List.length_singleton] at count
      omega
    | @cons t code ss codes first rest =>
      rw [keyBytes_cons, List.append_assoc code, List.cons_append] at begins
      have parts : u ++ 0 :: [] <+: code ++ 0 :: (keyBytes codes ++ [0]) := begins
      obtain ⟨rfl, _⟩ := prefix_split nonzero first.nonzero parts
      exact ⟨t, ss, rfl, first⟩
  | @cons p pcode ps pcodes front level ih =>
    rw [keyBytes_cons, List.append_assoc, List.append_assoc, List.cons_append] at begins
    cases coded with
    | nil =>
      obtain ⟨ch, more, head, _⟩ := front.head
      have count := begins.length_le
      rw [head] at count
      simp only [keyBytes, List.flatMap_nil, List.nil_append, List.length_append, List.length_cons] at count
      omega
    | @cons t code ss codes first rest =>
      rw [keyBytes_cons, List.append_assoc, List.cons_append] at begins
      obtain ⟨rfl, behind⟩ := prefix_split front.nonzero first.nonzero begins
      rw [← List.append_assoc] at behind
      obtain ⟨t', rest', same, coded'⟩ := ih rest behind
      exact ⟨t', rest', by rw [same, code_biUnique.1 front first]; rfl, coded'⟩

/-- The codes of the first subscripts, and those of the ones behind. -/
theorem coded_split {rest : List Subscript} (coded : List.Forall₂ (Subscript.Code std_null_coll) (ps ++ rest) codes)
    (level : List.Forall₂ (Subscript.Code std_null_coll) ps pcodes) :
    ∃ back, codes = pcodes ++ back ∧ List.Forall₂ (Subscript.Code std_null_coll) rest back := by
  have taken := List.forall₂_take ps.length coded
  have dropped := List.forall₂_drop ps.length coded
  rw [List.take_left] at taken
  rw [List.drop_left] at dropped
  have front := List.right_unique_forall₂' code_biUnique.2 taken level
  refine ⟨codes.drop ps.length, ?_, dropped⟩
  rw [← front, List.take_append_drop]

/-- The subscripts behind those of a level. -/
theorem hasSubscript_iff {u key : List UInt8} (coded : CodedKey std_null_coll name ss key)
    (level : List.Forall₂ (Subscript.Code std_null_coll) ps pcodes) (some : u ≠ []) :
    HasSubscript (levelBytes name pcodes) u key ↔ ∃ t rest, ss = ps ++ t :: rest ∧ t.Code std_null_coll u := by
  obtain ⟨codes, codedBy, rfl⟩ := coded.coded
  constructor
  · intro has
    have begins := has.begins
    rw [levelBytes, gdsBytes, List.append_assoc, List.append_assoc, List.cons_append] at begins
    have inner := (List.cons_prefix_cons.mp ((List.prefix_append_right_inj name).mp begins)).2
    rw [← List.append_assoc] at inner
    exact keyBytes_subscript codedBy level has.nonzero some inner
  · intro found
    obtain ⟨t, rest, rfl, here⟩ := found
    refine ⟨here.nonzero, ?_⟩
    obtain ⟨back, rfl, backCoded⟩ := coded_split codedBy level
    cases backCoded with
    | @cons _ code _ codes first others =>
      rw [first.unique here, levelBytes, gdsBytes, keyBytes_append, keyBytes_cons]
      exact ⟨keyBytes codes ++ [0], by simp only [List.append_assoc, List.cons_append, List.nil_append]⟩

/-! ## The loop -/

/-- The key that `op_gvorder` searches for: behind the last subscript and its descendants, or in front of all
when the last subscript is the empty string and collates behind the numbers. -/
def orderKey (std_null_coll gv_last_subsc_null : Bool) (gv_currkey : KeyBuffer) : KeyBuffer :=
  if ¬ gv_last_subsc_null ∨ std_null_coll then GVKEY_INCREMENT_ORDER gv_currkey
  else { gv_currkey with base := store gv_currkey.base gv_currkey.prev 1 }

/-- What $ORDER finds from a subscript on. From the empty string it finds every subscript, except the empty string
itself where that collates first. -/
def Follows (std_null_coll : Bool) (s t : Subscript) : Prop :=
  s = .null ∧ std_null_coll = false ∨ s.collate std_null_coll t = .lt

/-- What the search of $ORDER has in front of the one. -/
def startCode (std_null_coll gv_last_subsc_null : Bool) (code : List UInt8) : List UInt8 :=
  if ¬ gv_last_subsc_null ∨ std_null_coll then code else []

variable {db : Database} {root : Nat} {nodes : List Node} {gv_altkey gv_currkey : KeyBuffer}
variable {gv_last_subsc_null : Bool}

theorem gdsBytes_last (name : List UInt8) (pcodes : List (List UInt8)) (code : List UInt8) :
    gdsBytes name (pcodes ++ [code]) = levelBytes name pcodes ++ code ++ [0, 0] := by
  have one : keyBytes [code] = code ++ [KEY_DELIMITER] := List.append_nil _
  rw [gdsBytes, levelBytes, keyBytes_append, one]
  simp only [List.append_assoc, List.cons_append, List.nil_append]

/-- The bytes of the key that is searched for. -/
theorem orderKey_bytes (target : WellFormedTarget gv_currkey) (hidden : gv_currkey.end_ + 3 ≤ MAX_KEY_SZ)
    (last : s.Code std_null_coll code) (isNull : gv_last_subsc_null = true ↔ s = .null)
    (search : gv_currkey.bytes = levelBytes name pcodes ++ code ++ [0, 0])
    (prev : gv_currkey.prev = (levelBytes name pcodes).length) :
    WellFormedTarget (orderKey std_null_coll gv_last_subsc_null gv_currkey) ∧
      (orderKey std_null_coll gv_last_subsc_null gv_currkey).bytes =
        levelBytes name pcodes ++ startCode std_null_coll gv_last_subsc_null code ++
          [1, KEY_DELIMITER, KEY_DELIMITER] ∧
      (orderKey std_null_coll gv_last_subsc_null gv_currkey).prev = (levelBytes name pcodes).length := by
  unfold orderKey startCode
  by_cases increments : ¬ gv_last_subsc_null ∨ std_null_coll
  · rw [if_pos increments, if_pos increments]
    obtain ⟨next, bytes, _⟩ := increment_order_bytes target hidden search
    exact ⟨next, bytes, prev⟩
  · rw [if_neg increments, if_neg increments]
    have null : gv_last_subsc_null = true := by
      by_contra other
      exact increments (.inl other)
    have nonstandard : std_null_coll = false := by
      cases std_null_coll with
      | true => exact absurd (.inr rfl) increments
      | false => rfl
    have width := gv_currkey.length_bytes
    obtain rfl := isNull.mp null
    cases last
    subst nonstandard
    generalize levelBytes name pcodes = q at *
    have ends : gv_currkey.bytes = q ++ [STR_SUB_PREFIX, KEY_DELIMITER, KEY_DELIMITER] := by
      rw [search, List.append_assoc]
      rfl
    have count : gv_currkey.end_ + 1 = q.length + 3 := by
      rw [← width, ends]
      exact List.length_append
    -- only the byte of the subscript is another one
    have bytes : ({ gv_currkey with base := store gv_currkey.base gv_currkey.prev 1 } : KeyBuffer).bytes =
        q ++ [1, KEY_DELIMITER, KEY_DELIMITER] := by
      have whole : gv_currkey.base.read 0 (q.length + 3) = q ++ [STR_SUB_PREFIX, KEY_DELIMITER, KEY_DELIMITER] := by
        rw [← count]
        exact ends
      obtain ⟨front, back, _⟩ := read_eq_append whole
      have rest : [gv_currkey.base (0 + q.length), gv_currkey.base (0 + q.length + 1),
          gv_currkey.base (0 + q.length + 2)] = [STR_SUB_PREFIX, KEY_DELIMITER, KEY_DELIMITER] := by
        rw [← back, Nat.add_sub_cancel_left]
        rfl
      have first : gv_currkey.base (q.length + 1) = KEY_DELIMITER := by
        have tail := List.head_eq_of_cons_eq (List.tail_eq_of_cons_eq rest)
        rwa [Nat.zero_add] at tail
      have second : gv_currkey.base (q.length + 2) = KEY_DELIMITER := by
        have tail := List.head_eq_of_cons_eq (List.tail_eq_of_cons_eq (List.tail_eq_of_cons_eq rest))
        rwa [Nat.zero_add] at tail
      unfold KeyBuffer.bytes
      dsimp only
      rw [prev, count, ByteMemory.read_add, Nat.zero_add]
      have same : (store gv_currkey.base q.length 1).read 0 q.length = q := by
        have unchanged : (store gv_currkey.base q.length 1).read 0 q.length = gv_currkey.base.read 0 q.length :=
          ByteMemory.read_congr fun i less => store_other _ (by omega)
        exact unchanged.trans front
      have three : (store gv_currkey.base q.length 1).read q.length 3 =
          [store gv_currkey.base q.length 1 q.length, store gv_currkey.base q.length 1 (q.length + 1),
            store gv_currkey.base q.length 1 (q.length + 2)] := rfl
      rw [same, three, store_same, store_other _ (by omega), store_other _ (by omega), first, second]
    refine ⟨⟨?_, ?_⟩, by rw [List.append_nil]; exact bytes, prev⟩
    · rw [bytes]
      obtain ⟨body, whole, chain⟩ := target.wellFormed.ends
      rw [ends] at whole
      have starts := target.wellFormed.starts
      have split : q ++ [STR_SUB_PREFIX] ++ [KEY_DELIMITER, KEY_DELIMITER] = body ++ [KEY_DELIMITER, KEY_DELIMITER] := by
        rw [List.append_assoc]
        exact whole
      have bodyIs := List.append_cancel_right split
      rw [← bodyIs, List.append_assoc] at chain
      apply wellFormed_with_one _ (List.isChain_append.mp chain).1
      cases q with
      | nil => exact .inr rfl
      | cons c q =>
        rw [ends] at starts
        exact .inl starts
    · rw [bytes, List.length_append]
      simp only [List.length_cons, List.length_nil]
      omega

/-- No code is `startCode` with a one behind it. -/
theorem code_ne_start_one (first : s.Code std_null_coll code)
    (coded : t.Code std_null_coll other) : other ≠ startCode std_null_coll gv_last_subsc_null code ++ [1] := by
  unfold startCode
  split
  next => exact code_ne_one first coded
  next nonstandard =>
    intro same
    have notStandard : std_null_coll = false := by
      cases std_null_coll with
      | true => exact absurd (.inr rfl) nonstandard
      | false => rfl
    subst notStandard
    cases coded with
    | null => exact absurd same (by decide)
    | zero => exact absurd same (by decide)
    | decimal d inRange => exact decimal_code_ne_one d _ same
    | string bytes some => exact absurd (List.head_eq_of_cons_eq same) (by decide)

/-- The codes that $ORDER finds from a subscript on. -/
theorem start_lt_iff (first : s.Code std_null_coll code) (isNull : gv_last_subsc_null = true ↔ s = .null)
    (coded : t.Code std_null_coll other) :
    startCode std_null_coll gv_last_subsc_null code < other ↔ Follows std_null_coll s t := by
  unfold startCode Follows
  split
  next standard =>
    rw [code_lt_iff first coded]
    refine ⟨.inr, ?_⟩
    intro follows
    cases follows with
    | inr order => exact order
    | inl null =>
      obtain ⟨same, nonstandard⟩ := null
      cases standard with
      | inl notNull => exact absurd (isNull.mpr same) notNull
      | inr standard => exact absurd standard (by rw [nonstandard]; decide)
  next nonstandard =>
    obtain ⟨ch, more, head, _⟩ := coded.head
    rw [head]
    refine ⟨fun _ => .inl ?_, fun _ => List.nil_lt_cons _ _⟩
    constructor
    · apply isNull.mp
      by_contra notNull
      exact nonstandard (.inl notNull)
    · cases std_null_coll with
      | true => exact absurd (.inr rfl) nonstandard
      | false => rfl

theorem exists_code {subscripts : List Subscript} {us : List (List UInt8)}
    (all : List.Forall₂ (Subscript.Code std_null_coll) subscripts us) (member : t ∈ subscripts) :
    ∃ u ∈ us, t.Code std_null_coll u := by
  induction all with
  | nil => exact absurd member List.not_mem_nil
  | cons first _ ih =>
    cases List.mem_cons.mp member with
    | inl same => exact ⟨_, List.mem_cons_self, same ▸ first⟩
    | inr later =>
      obtain ⟨u, inside, coded⟩ := ih later
      exact ⟨u, List.mem_cons_of_mem _ inside, coded⟩

theorem exists_codes {us : List (List UInt8)} (coded : ∀ u ∈ us, ∃ t : Subscript, t.Code std_null_coll u) :
    ∃ subscripts, List.Forall₂ (Subscript.Code std_null_coll) subscripts us := by
  induction us with
  | nil => exact ⟨[], .nil⟩
  | cons u us ih =>
    obtain ⟨t, first⟩ := coded u List.mem_cons_self
    obtain ⟨subscripts, all⟩ := ih fun u member => coded u (List.mem_cons_of_mem _ member)
    exact ⟨t :: subscripts, .cons first all⟩

/-- Subscripts are in an order when their codes are. -/
theorem pairwise_codes {R : List UInt8 → List UInt8 → Prop} {S : Subscript → Subscript → Prop}
    {subscripts : List Subscript} {us : List (List UInt8)}
    (all : List.Forall₂ (Subscript.Code std_null_coll) subscripts us) (sorted : us.Pairwise R)
    (order : ∀ {t u t' u'}, t.Code std_null_coll u → t'.Code std_null_coll u' → R u u' → S t t') :
    subscripts.Pairwise S := by
  induction all with
  | nil => exact .nil
  | cons first all ih =>
    obtain ⟨front, rest⟩ := List.pairwise_cons.mp sorted
    refine List.pairwise_cons.mpr ⟨?_, ih rest⟩
    intro t' member
    obtain ⟨u', inside, coded'⟩ := exists_code all member
    exact order first coded' (front u' inside)

theorem code_ne_nil {u : List UInt8} (coded : t.Code std_null_coll u) : u ≠ [] := by
  obtain ⟨ch, more, head, _⟩ := coded.head
  rw [head]
  exact List.cons_ne_nil _ _

/-- The subscript of a level in a key, and the key's coded subscripts. -/
theorem subscript_of_key (keys : ∀ n ∈ nodes, ∃ ss, CodedKey std_null_coll name ss n.key)
    (level : List.Forall₂ (Subscript.Code std_null_coll) ps pcodes) {n : Node} (member : n ∈ nodes) {u : List UInt8}
    (some : u ≠ []) (has : HasSubscript (levelBytes name pcodes) u n.key) :
    ∃ t, t.Code std_null_coll u ∧ ∃ rest, CodedKey std_null_coll name (ps ++ t :: rest) n.key := by
  obtain ⟨ss, key⟩ := keys n member
  obtain ⟨t, rest, same, coded⟩ := (hasSubscript_iff key level some).mp has
  exact ⟨t, coded, rest, same ▸ key⟩

/-- The codes of the subscripts of a level are those of the subscripts in the keys. -/
theorem visited_collated {R : List UInt8 → Prop} {S : Subscript → Prop} {found : List (List UInt8)}
    (keys : ∀ n ∈ nodes, ∃ ss, CodedKey std_null_coll name ss n.key)
    (level : List.Forall₂ (Subscript.Code std_null_coll) ps pcodes) (some : ∀ u ∈ found, u ≠ [])
    (members : ∀ u, u ≠ [] → (u ∈ found ↔ R u ∧ ∃ n ∈ nodes, HasSubscript (levelBytes name pcodes) u n.key))
    (same : ∀ t u, t.Code std_null_coll u → (∃ n ∈ nodes, HasSubscript (levelBytes name pcodes) u n.key) →
      (R u ↔ S t)) :
    ∃ subscripts, List.Forall₂ (Subscript.Code std_null_coll) subscripts found ∧
      ∀ t, t ∈ subscripts ↔ S t ∧ ∃ n ∈ nodes, ∃ rest, CodedKey std_null_coll name (ps ++ t :: rest) n.key := by
  have codedAll : ∀ u ∈ found, ∃ t : Subscript, t.Code std_null_coll u := by
    intro u member
    obtain ⟨_, n, inside, has⟩ := (members u (some u member)).mp member
    obtain ⟨t, coded, _⟩ := subscript_of_key keys level inside (some u member) has
    exact ⟨t, coded⟩
  obtain ⟨subscripts, coded⟩ := exists_codes codedAll
  refine ⟨subscripts, coded, ?_⟩
  intro t
  constructor
  · intro member
    obtain ⟨u, inside, codedBy⟩ := exists_code coded member
    obtain ⟨chosen, n, visited, has⟩ := (members u (some u inside)).mp inside
    obtain ⟨t', coded', rest, key⟩ := subscript_of_key keys level visited (some u inside) has
    obtain rfl := code_biUnique.1 codedBy coded'
    exact ⟨(same _ u coded' ⟨n, visited, has⟩).mp chosen, n, visited, rest, key⟩
  · intro found
    obtain ⟨chosen, n, visited, rest, key⟩ := found
    obtain ⟨codes, all, _⟩ := key.coded
    obtain ⟨u, _, codedBy⟩ := exists_code all (List.mem_append_right _ List.mem_cons_self)
    have has := (hasSubscript_iff key level (code_ne_nil codedBy)).mpr ⟨t, rest, rfl, codedBy⟩
    have inside := (members u (code_ne_nil codedBy)).mpr ⟨(same t u codedBy ⟨n, visited, has⟩).mpr chosen, n, visited, has⟩
    exact (List.rel_mem code_biUnique codedBy coded).mpr inside

/-- A $ORDER loop, searching without a clue, visits the subscripts of a level that follow a subscript, each once and
as they collate. -/
theorem order_visits_collated (tree : TreeHolds db root nodes) (room : MAX_KEY_SZ ≤ gv_altkey.top)
    (roomy : LeavesRoom nodes) (keys : ∀ n ∈ nodes, ∃ ss, CodedKey std_null_coll name ss n.key)
    (level : List.Forall₂ (Subscript.Code std_null_coll) ps pcodes) (first : s.Code std_null_coll code)
    (isNull : gv_last_subsc_null = true ↔ s = .null) (target : WellFormedTarget gv_currkey)
    (hidden : gv_currkey.end_ + 3 ≤ MAX_KEY_SZ) (search : gv_currkey.bytes = gdsBytes name (pcodes ++ [code]))
    (prev : gv_currkey.prev = (levelBytes name pcodes).length) {turns : Nat} (enough : nodes.length < turns) :
    ∃ (subscripts : List Subscript) (found : List (List UInt8)),
      List.Forall₂ (Subscript.Code std_null_coll) subscripts found ∧
      orderLoop db root turns gv_altkey (orderKey std_null_coll gv_last_subsc_null gv_currkey) =
        some (found.map fun code => gdsBytes name (pcodes ++ [code])) ∧
      (subscripts.Pairwise fun s t => s.collate std_null_coll t = .lt) ∧
      ∀ t, t ∈ subscripts ↔ Follows std_null_coll s t ∧
        ∃ n ∈ nodes, ∃ rest, CodedKey std_null_coll name (ps ++ t :: rest) n.key := by
  rw [gdsBytes_last] at search
  obtain ⟨next, search', prev'⟩ := orderKey_bytes target hidden first isNull search prev
  have nonzero : ∀ ch ∈ startCode std_null_coll gv_last_subsc_null code, ch ≠ 0 := by
    unfold startCode
    split
    next => exact first.nonzero
    next => exact fun ch member => absurd member List.not_mem_nil
  have apart : NoneBehindOne (levelBytes name pcodes) (startCode std_null_coll gv_last_subsc_null code) nodes := by
    intro u from' n member begins
    have nonzero' : ∀ ch ∈ u, ch ≠ 0 := by
      cases from' with
      | inl same => exact same ▸ nonzero
      | inr one =>
        obtain ⟨_, _, _, has⟩ := one
        exact has.nonzero
    have has : HasSubscript (levelBytes name pcodes) (u ++ [1]) n.key := by
      refine ⟨?_, ?_⟩
      · intro ch inside
        cases List.mem_append.mp inside with
        | inl front => exact nonzero' ch front
        | inr last =>
          rw [List.mem_singleton.mp last]
          decide
      · rw [← List.append_assoc, List.append_assoc]
        exact begins
    obtain ⟨t, coded, _⟩ := subscript_of_key keys level member (by simp) has
    cases from' with
    | inl same => exact code_ne_start_one first coded (congrArg (· ++ [1]) same)
    | inr one =>
      obtain ⟨some, n', member', has'⟩ := one
      obtain ⟨t', coded', _⟩ := subscript_of_key keys level member' some has'
      exact code_ne_one coded' coded rfl
  have count := List.length_filter_le
    (fun n : Node => decide ¬ n.key < (orderKey std_null_coll gv_last_subsc_null gv_currkey).bytes) nodes
  obtain ⟨found, result, sorted, members⟩ := orderLoop_visits tree next room roomy prev' search' nonzero apart
    (Nat.lt_of_le_of_lt count enough)
  obtain ⟨subscripts, coded, visited⟩ := @visited_collated std_null_coll ps pcodes name nodes
    (fun u => startCode std_null_coll gv_last_subsc_null code < u) (Follows std_null_coll s) found keys level
    (fun u member empty => List.not_lt_nil _ (empty ▸ ((members u).mp member).1)) (fun u _ => members u)
    fun t u codedBy _ => start_lt_iff first isNull codedBy
  refine ⟨subscripts, found, coded, ?_, pairwise_codes coded sorted fun codedBy coded' => (code_lt_iff codedBy coded').mp,
    visited⟩
  rw [result]
  simp only [gdsBytes_last]

/-- The number 1. -/
def unit : Decimal := ⟨false, 1, 100000000000000000, by decide, by decide⟩

theorem smallDatabase_coded :
    ∀ n ∈ smallNodes ++ otherNodes, ∃ ss, CodedKey true [0x61] ss n.key := by
  have number : (Subscript.number unit.value).Code true unit.code := .decimal unit ⟨by decide, by decide⟩
  have numberCode : unit.code = [0xbf, 0x11] := by decide +kernel
  have string : (Subscript.string [0x78]).Code true [0xff, 0x78] := .string [0x78] (by decide)
  rw [numberCode] at number
  intro n member
  cases member with
  | head => exact ⟨[], [], .nil, rfl⟩
  | tail _ member =>
    cases member with
    | head => exact ⟨[_], [_], .cons number .nil, rfl⟩
    | tail _ member =>
      cases member with
      | head => exact ⟨[_], [_], .cons string .nil, rfl⟩
      | tail _ member => exact absurd member List.not_mem_nil

/-- The loop from the null subscript finds all subscripts. -/
theorem order_visits_collated_all : ∃ (subscripts : List Subscript) (found : List (List UInt8)),
    List.Forall₂ (Subscript.Code true) subscripts found ∧
    orderLoop smallDatabase 1 4 (smallGlobals []).gv_altkey
        (orderKey true true (smallGlobals [0x61, 0, 1, 0, 0]).gv_currkey) =
      some (found.map fun code => gdsBytes [0x61] ([] ++ [code])) ∧
    (subscripts.Pairwise fun s t => s.collate true t = .lt) ∧
    ∀ t, t ∈ subscripts ↔ Follows true .null t ∧
      ∃ n ∈ smallNodes ++ otherNodes, ∃ rest, CodedKey true [0x61] ([] ++ t :: rest) n.key := by
  have key : (smallGlobals [0x61, 0, 1, 0, 0]).gv_currkey.bytes = [0x61, 0, 1, 0, 0] := by decide
  have target : WellFormedTarget (smallGlobals [0x61, 0, 1, 0, 0]).gv_currkey :=
    ⟨key ▸ ⟨by decide, [0x61, 0, 1], rfl, by simp [NotBothDelimiters, KEY_DELIMITER]⟩, by decide⟩
  exact order_visits_collated smallDatabase_holds (by decide) (by unfold LeavesRoom; decide) smallDatabase_coded .nil
    .null (by simp) target (by decide) (key.trans (by decide)) (by decide) (by decide)

end Ydb.GlobalTree
