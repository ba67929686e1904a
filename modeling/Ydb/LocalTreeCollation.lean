import Mathlib.Order.WithBot
import Mathlib.Data.List.Perm.Basic
import Ydb.LocalTreeRuns
import Ydb.LocalTreeTraversal

/-!
# Collated traversal

The tree keeps the null string between numbers and strings. Under standard null
collation it comes first instead, so the routines that step through a level hop over
the null node where they meet it in the stored order, and supply it at the start.
`std` is `local_collseq_stdnull`.
-/

namespace Ydb

open Lib

/-! ## The routines -/

/-- The key "". -/
def literal_null : TreeKeySubscr := ⟨⟨⟨true, true, true, true, false⟩, false, 0, 0, 0, []⟩, false⟩

/-- Whether the key is "". -/
def LV_NODE_KEY_IS_NULL_SUBS (n : LvTreeNode) : Bool :=
  n.key_mvtype.str && !n.key_mvtype.sqlnull && n.key_str.isEmpty

/-- The test for the null subscript that the routines which start from a key make. -/
def TreeKeySubscr.isNullSubs (key : TreeKeySubscr) : Bool :=
  key.mvtype.str && !key.mvtype.sqlnull && key.str.isEmpty

/-- Hop over the null subscript. -/
def LocalTree.hopNull (t : LocalTree) (side : Side) : Option Addr → Option (Option Addr)
  | none => some none
  | some n => if LV_NODE_KEY_IS_NULL_SUBS (t.heap n) then t.neighbour side n else some (some n)

/-- At the end of the level the null subscript is left, if it is there. -/
def LocalTree.orNull (t : LocalTree) : Option Addr → Option (LocalTree × Option Addr)
  | some n => some (t, some n)
  | none => do
    let (t, node, _) ← lvAvlTreeLookupStr t literal_null none
    some (t, node)

/-- The start of a level, as `op_fnquery` finds it. -/
def collatedFirst (t : LocalTree) (std : Bool) : Option (LocalTree × Option Addr) := do
  let (t, nullsubsnode) ←
    if std then do
      let (t, node, _) ← lvAvlTreeLookupStr t literal_null none
      some (t, node)
    else some (t, none)
  match nullsubsnode with
  | some n => some (t, some n)
  | none => (lvAvlTreeFirst t).map fun r => (t, r)

/-- The last node of the level. -/
def lvAvlTreeCollatedLast (t : LocalTree) (std : Bool) : Option (Option Addr) := do
  let last ← lvAvlTreeLast t
  match last with
  | none => some none
  | some n =>
    if std && LV_NODE_KEY_IS_NULL_SUBS (t.heap n) then
      -- The null subscript is returned only when it is alone.
      match ← lvAvlTreePrev t n with
      | some prev => some (some prev)
      | none => some (some n)
    else some (some n)

/-- The node behind a key. -/
def lvAvlTreeKeyCollatedNext (t : LocalTree) (std : Bool) (key : TreeKeySubscr) :
    Option (LocalTree × Option Addr) :=
  if std then do
    let (t, next) ←
      if key.isNullSubs then (lvAvlTreeFirst t).map fun r => (t, r) else lvAvlTreeKeyNext t key
    (t.hopNull .right next).map fun r => (t, r)
  else lvAvlTreeKeyNext t key

/-- The node behind a node. -/
def lvAvlTreeNodeCollatedNext (t : LocalTree) (std : Bool) (n : Addr) : Option (Option Addr) :=
  if std then do
    let next ← if LV_NODE_KEY_IS_NULL_SUBS (t.heap n) then lvAvlTreeFirst t else lvAvlTreeNext t n
    t.hopNull .right next
  else lvAvlTreeNext t n

/-- The node in front of a node. -/
def lvAvlTreeNodeCollatedPrev (t : LocalTree) (std : Bool) (n : Addr) :
    Option (LocalTree × Option Addr) :=
  if std then
    if LV_NODE_KEY_IS_NULL_SUBS (t.heap n) then some (t, none)
    else do
      let prev ← lvAvlTreePrev t n
      let prev ← t.hopNull .left prev
      t.orNull prev
  else (lvAvlTreePrev t n).map fun r => (t, r)

/-- The node in front of a key. -/
def lvAvlTreeKeyCollatedPrev (t : LocalTree) (std : Bool) (key : TreeKeySubscr) :
    Option (LocalTree × Option Addr) :=
  if std then
    if key.isNullSubs then some (t, none)
    else do
      let (t, prev) ← lvAvlTreeKeyPrev t key
      let prev ← t.hopNull .left prev
      t.orNull prev
  else lvAvlTreeKeyPrev t key

/-- The nodes that repeated calls of a routine visit until it finds no further node. -/
inductive Visits (next : LocalTree → Addr → Option (LocalTree × Option Addr)) :
    LocalTree → Option Addr → List Addr → Prop
  | stops (t : LocalTree) : Visits next t none []
  | visits {t t' : LocalTree} {a : Addr} {r : Option Addr} {rest : List Addr}
      (step : next t a = some (t', r)) (further : Visits next t' r rest) :
      Visits next t (some a) (a :: rest)

/-! ## The collation order -/

/-- The null string. -/
def nullSubscript : LocalSubscript := Sum.inrₗ (Sum.inlₗ [])

/-- The place of a subscript in collation order: under standard null collation the
null string comes before all others. -/
def collate (std : Bool) (x : LocalSubscript) : WithBot LocalSubscript :=
  if std = true ∧ x = nullSubscript then ⊥ else x

/-- A subscript as callers pass it: a string is marked as one, and the text of a
number that carries its text is not empty. -/
structure TreeKeySubscr.Coherent (key : TreeKeySubscr) : Prop where
  text : key.canonical = false → key.mvtype.str = true
  number : key.canonical = true → key.mvtype.str = true → key.str ≠ []

open BinaryTree

/-- The tests for the null subscript compare with the null string. -/
theorem TreeKeySubscr.isNullSubs_iff {key : TreeKeySubscr} (coherent : key.Coherent) :
    key.isNullSubs = true ↔ key.subscript = nullSubscript := by
  unfold isNullSubs TreeKeySubscr.subscript nullSubscript
  cases canonical : key.canonical with
  | true =>
    have filled := coherent.number canonical
    simp only [if_true, Bool.and_eq_true, List.isEmpty_iff]
    constructor
    · rintro ⟨⟨str, _⟩, empty⟩
      exact absurd empty (filled str)
    · intro same
      cases same
  | false =>
    have str := coherent.text canonical
    simp only [str, Bool.true_and, Bool.false_eq_true, if_false]
    cases key.mvtype.sqlnull with
    | true =>
      simp only [Bool.not_true, Bool.false_and, Bool.false_eq_true, false_iff, if_true]
      intro same
      cases same
    | false =>
      simp only [Bool.not_false, Bool.true_and, List.isEmpty_iff, Bool.false_eq_true, if_false]
      constructor
      · intro empty
        rw [empty]
        rfl
      · intro same
        have texts : key.str.map UInt8.toNat = [] := Sum.inl.inj (Sum.inr.inj same)
        exact List.map_eq_nil_iff.mp texts

theorem LvTreeNode.ValidKey.coherent {n : LvTreeNode} (valid : n.ValidKey) : n.key.Coherent := by
  have marked : n.key.mvtype.str = !n.key.canonical := valid.marked
  constructor
  · intro text
    rw [marked, text]
    rfl
  · intro number str
    rw [marked, number] at str
    cases str

theorem LvTreeNode.ValidKey.isNull_iff {n : LvTreeNode} (valid : n.ValidKey) :
    LV_NODE_KEY_IS_NULL_SUBS n = true ↔ n.subscript = nullSubscript :=
  TreeKeySubscr.isNullSubs_iff valid.coherent

theorem collate_null : collate true nullSubscript = ⊥ := if_pos ⟨rfl, rfl⟩

theorem collate_of_ne {std : Bool} {x : LocalSubscript} (differ : std = true → x ≠ nullSubscript) :
    collate std x = x := by
  apply if_neg
  rintro ⟨standard, null⟩
  exact differ standard null

theorem collate_past {std : Bool} {side : Side} {x y : LocalSubscript}
    (left : std = true → x ≠ nullSubscript) (right : std = true → y ≠ nullSubscript) :
    side.Past (collate std x) (collate std y) ↔ side.Past x y := by
  rw [collate_of_ne left, collate_of_ne right]
  cases side <;> exact WithBot.coe_lt_coe

theorem collate_lt {x y : LocalSubscript} :
    collate true x < collate true y ↔ (x = nullSubscript ∨ x < y) ∧ y ≠ nullSubscript := by
  by_cases right : y = nullSubscript
  · rw [right, collate_null]
    simp
  · rw [collate_of_ne fun _ => right]
    by_cases left : x = nullSubscript
    · rw [left, collate_null]
      simp [right, WithBot.bot_lt_coe]
    · rw [collate_of_ne fun _ => left, WithBot.coe_lt_coe]
      simp [left, right]

/-! ## Hopping over the null node -/

/-- The nodes whose key is the null string. -/
def LocalTree.nulls (t : LocalTree) : Set Addr := {b | t.rank b = nullSubscript}

/-- The ranks of the nodes in collation order. -/
def LocalTree.collated (t : LocalTree) (std : Bool) (a : Addr) : WithBot LocalSubscript :=
  collate std (t.rank a)

/-- The nodes on one side of a subscript in collation order. -/
def LocalTree.nodesPast (t : LocalTree) (T : BinaryTree Addr) (std : Bool) (side : Side)
    (x : LocalSubscript) : Set Addr :=
  {b | b ∈ inorder T ∧ side.Past (collate std x) (t.collated std b)}

section Collation

variable {t : LocalTree} {T : BinaryTree Addr}

theorem Kept.collated {t' : LocalTree} (kept : Kept t T t') : t'.collated = t.collated := by
  unfold LocalTree.collated
  rw [kept.rank]

theorem LocalTree.WellFormed.isNull (wf : t.WellFormed T) {n : Addr} (member : n ∈ inorder T) :
    LV_NODE_KEY_IS_NULL_SUBS (t.heap n) = true ↔ n ∈ t.nulls :=
  (wf.validKeys n member).isNull_iff

theorem LocalTree.WellFormed.rank_injective (wf : t.WellFormed T) {a b : Addr}
    (first : a ∈ inorder T) (second : b ∈ inorder T) (same : t.rank a = t.rank b) : a = b := by
  have distinct : ((inorder T).map t.rank).Nodup := by
    have sorted : ((inorder T).map t.rank).Pairwise (· < ·) := wf.sorted
    exact sorted.imp fun smaller => ne_of_lt smaller
  exact List.inj_on_of_nodup_map distinct first second same

/-- The node after the hop is the closest one among those that are not null. -/
theorem LocalTree.WellFormed.hopNull (wf : t.WellFormed T) {side : Side} {S : Set Addr}
    {r : Option Addr} (closest : Closest side t.rank S r) (inside : ∀ b ∈ S, b ∈ inorder T)
    (closed : ∀ a ∈ S, ∀ b ∈ inorder T, side.Past (t.rank a) (t.rank b) → b ∈ S) :
    ∃ r', t.hopNull side r = some r' ∧ Closest side t.rank (S \ t.nulls) r' := by
  cases r with
  | none => exact ⟨none, rfl, closest.without _ nofun⟩
  | some n =>
    have member := inside n closest.1
    rw [LocalTree.hopNull]
    by_cases null : n ∈ t.nulls
    · rw [if_pos ((wf.isNull member).mpr null)]
      obtain ⟨r', done, further⟩ := wf.neighbour side member
      refine ⟨r', done, ?_⟩
      have past : {b | b ∈ inorder T ∧ side.Past (t.rank n) (t.rank b)} =
          {b | b ∈ S ∧ side.Past (t.rank n) (t.rank b)} := by
        ext b
        constructor
        · rintro ⟨inTree, past⟩
          exact ⟨closed n closest.1 b inTree past, past⟩
        · rintro ⟨inS, past⟩
          exact ⟨inside b inS, past⟩
      have single : S \ t.nulls = S \ {n} := by
        ext b
        constructor
        · rintro ⟨inS, notNull⟩
          refine ⟨inS, ?_⟩
          rintro rfl
          exact notNull null
        · rintro ⟨inS, differ⟩
          refine ⟨inS, fun alsoNull => differ ?_⟩
          exact wf.rank_injective (inside b inS) member (alsoNull.trans null.symm)
      rw [past] at further
      rw [single]
      exact closest.hop further
    · rw [if_neg fun isNull => null ((wf.isNull member).mp isNull)]
      refine ⟨some n, rfl, closest.without _ ?_⟩
      rintro a ⟨⟩
      exact null

/-- The lookup of the null string. -/
theorem lookupNull_spec (wf : t.WellFormed T) (clueOk : t.ClueOk T) :
    ∃ t' r parent, lvAvlTreeLookupStr t literal_null none = some (t', r, parent) ∧ Kept t T t' ∧
      ((∃ n, r = some n ∧ n ∈ inorder T ∧ n ∈ t.nulls) ∨
        (r = none ∧ ∀ b ∈ inorder T, b ∉ t.nulls)) := by
  have null : literal_null.subscript = nullSubscript := rfl
  have compares : ComparesTo literal_null (LV_AVL_TREE_STRKEY_CMP literal_null) :=
    fun b _ => LV_AVL_TREE_STRKEY_CMP_compares rfl
  obtain ⟨t', r, parent, done, looked⟩ := lookupWith_spec compares wf clueOk none
  have kept : Kept t T t' := ⟨looked.wellFormed, looked.clue, looked.shape⟩
  refine ⟨t', r, parent, done, kept, ?_⟩
  rcases looked.outcome with ⟨n, rfl, same, leads⟩ | ⟨rfl, fs, rfl, _, _, _, between⟩
  · left
    refine ⟨n, rfl, leads.mem, ?_⟩
    show t.rank n = nullSubscript
    rw [← kept.rank]
    exact same.trans null
  · right
    refine ⟨rfl, ?_⟩
    intro b member isNull
    have same : t'.rank b = literal_null.subscript := by
      rw [kept.rank]
      exact isNull
    rcases mem_inorder_plug.mp member with inside | inFront | behind
    · cases inside
    · exact Side.not_past_self (same ▸ between .left b inFront)
    · exact Side.not_past_self (same ▸ between .right b behind)

/-! ## Steps -/

/-- Among nodes that are not null the two orders agree. -/
theorem closest_collated {side : Side} {S : Set Addr} {r : Option Addr}
    (closest : Closest side t.rank (S \ t.nulls) r) (std : Bool) :
    Closest side (t.collated std) (S \ t.nulls) r := by
  apply closest.rerank
  intro a first b second past
  exact (collate_past (fun _ => first.2) fun _ => second.2).mpr past

/-- Without standard null collation the order is the stored one. -/
theorem closest_stored {side : Side} {x : LocalSubscript} {r : Option Addr}
    (closest : Closest side t.rank {b | b ∈ inorder T ∧ side.Past x (t.rank b)} r) :
    Closest side (t.collated false) (t.nodesPast T false side x) r := by
  have same (y z : LocalSubscript) : side.Past (collate false y) (collate false z) ↔ side.Past y z :=
    collate_past nofun nofun
  simp only [LocalTree.nodesPast, LocalTree.collated, same]
  apply closest.rerank
  intro a _ b _ past
  exact (same _ _).mpr past

theorem null_below {a b : Addr} (isNull : a ∈ t.nulls) (notNull : b ∉ t.nulls) :
    t.collated true a < t.collated true b := by
  rw [LocalTree.collated, LocalTree.collated, show t.rank a = nullSubscript from isNull,
    collate_null, collate_of_ne fun _ => notNull]
  exact WithBot.bot_lt_coe _

/-- The next node in collation order, from the next node in the stored order. From the
null string this is the first node of the tree. -/
theorem LocalTree.WellFormed.hopNext (wf : t.WellFormed T) {x : LocalSubscript} {r : Option Addr}
    (closest : Closest .right t.rank
      {b | b ∈ inorder T ∧ (x = nullSubscript ∨ Side.right.Past x (t.rank b))} r) :
    ∃ r', t.hopNull .right r = some r' ∧
      Closest .right (t.collated true) (t.nodesPast T true .right x) r' := by
  have closed : ∀ a ∈ {b | b ∈ inorder T ∧ (x = nullSubscript ∨ Side.right.Past x (t.rank b))},
      ∀ b ∈ inorder T, Side.right.Past (t.rank a) (t.rank b) →
        b ∈ inorder T ∧ (x = nullSubscript ∨ Side.right.Past x (t.rank b)) := by
    rintro a ⟨_, isNull | past⟩ b member further
    · exact ⟨member, .inl isNull⟩
    · exact ⟨member, .inr (past.trans further)⟩
  obtain ⟨r', done, hopped⟩ := wf.hopNull closest (fun b place => place.1) closed
  refine ⟨r', done, ?_⟩
  have same : t.nodesPast T true .right x =
      {b | b ∈ inorder T ∧ (x = nullSubscript ∨ Side.right.Past x (t.rank b))} \ t.nulls := by
    ext b
    exact (and_congr_right fun _ => collate_lt).trans and_assoc.symm
  rw [same]
  exact closest_collated hopped true

/-- The previous node in collation order: the previous one in the stored order, apart
from the null node, which is left for the end. -/
theorem LocalTree.WellFormed.hopPrev (wf : t.WellFormed T) (clueOk : t.ClueOk T)
    {x : LocalSubscript} (differ : x ≠ nullSubscript) {r : Option Addr}
    (closest : Closest .left t.rank {b | b ∈ inorder T ∧ Side.left.Past x (t.rank b)} r) :
    ∃ t' r', (t.hopNull .left r).bind t.orNull = some (t', r') ∧ Kept t T t' ∧
      Closest .left (t.collated true) (t.nodesPast T true .left x) r' := by
  have place (b : Addr) : b ∈ inorder T ∧ Side.left.Past (collate true x) (t.collated true b) ↔
      b ∈ inorder T ∧ (b ∈ t.nulls ∨ Side.left.Past x (t.rank b)) := by
    apply and_congr_right
    intro _
    exact collate_lt.trans (and_iff_left differ)
  obtain ⟨r', done, hopped⟩ := wf.hopNull closest (fun b place => place.1)
    fun a inS b member further => ⟨member, Side.Past.trans inS.2 further⟩
  simp only [done, Option.bind_some, LocalTree.nodesPast, place]
  cases r' with
  | some n =>
    refine ⟨t, some n, rfl, .refl wf clueOk, ⟨hopped.1.1.1, .inr hopped.1.1.2⟩, ?_⟩
    rintro b ⟨member, where'⟩ apart
    by_cases isNull : b ∈ t.nulls
    · exact null_below isNull hopped.1.2
    · have past : Side.left.Past x (t.rank b) := where'.resolve_left isNull
      exact (closest_collated hopped true).2 b ⟨⟨member, past⟩, isNull⟩ apart
  | none =>
    have alone (b : Addr) (member : b ∈ inorder T) (past : Side.left.Past x (t.rank b)) :
        b ∈ t.nulls := by
      by_contra notNull
      have nothing : {b | b ∈ inorder T ∧ Side.left.Past x (t.rank b)} \ t.nulls = ∅ := hopped
      exact Set.notMem_empty b (nothing ▸ ⟨⟨member, past⟩, notNull⟩)
    obtain ⟨t', r', parent, looked, kept, found⟩ := lookupNull_spec wf clueOk
    refine ⟨t', r', by simp [LocalTree.orNull, looked], kept, ?_⟩
    rcases found with ⟨n, rfl, member, isNull⟩ | ⟨rfl, noNull⟩
    · refine ⟨⟨member, .inl isNull⟩, ?_⟩
      rintro b ⟨alsoMember, where'⟩ apart
      have alsoNull : b ∈ t.nulls := where'.elim id (alone b alsoMember)
      exact absurd (wf.rank_injective alsoMember member (alsoNull.trans isNull.symm)) apart
    · show {b | b ∈ inorder T ∧ (b ∈ t.nulls ∨ Side.left.Past x (t.rank b))} = ∅
      ext b
      constructor
      · rintro ⟨member, isNull | past⟩
        · exact absurd isNull (noNull b member)
        · exact absurd (alone b member past) (noNull b member)
      · intro inside
        cases inside

/-- The node behind a node, in collation order. -/
theorem collatedNext_spec (wf : t.WellFormed T) (std : Bool) {a : Addr} (member : a ∈ inorder T) :
    ∃ r, lvAvlTreeNodeCollatedNext t std a = some r ∧
      Closest .right (t.collated std) (t.nodesPast T std .right (t.rank a)) r := by
  cases std with
  | false =>
    obtain ⟨r, done, closest⟩ := wf.neighbour .right member
    exact ⟨r, done, closest_stored closest⟩
  | true =>
    rw [lvAvlTreeNodeCollatedNext, if_pos rfl]
    by_cases isNull : a ∈ t.nulls
    · obtain ⟨first, done, closest⟩ := wf.endNode .left
      rw [if_pos ((wf.isNull member).mpr isNull), show lvAvlTreeFirst t = some first from done]
      apply wf.hopNext
      have start : t.rank a = nullSubscript := isNull
      simp only [start, true_or, and_true]
      exact closest
    · obtain ⟨next, done, closest⟩ := wf.neighbour .right member
      rw [if_neg fun null => isNull ((wf.isNull member).mp null),
        show lvAvlTreeNext t a = some next from done]
      apply wf.hopNext
      have differ : t.rank a ≠ nullSubscript := isNull
      simp only [differ, false_or]
      exact closest

/-- The node behind a key, in collation order. -/
theorem keyCollatedNext_spec (wf : t.WellFormed T) (clueOk : t.ClueOk T) (std : Bool)
    {key : TreeKeySubscr} (valid : key.Valid) (coherent : key.Coherent) (inhabited : T ≠ .nil) :
    ∃ t' r, lvAvlTreeKeyCollatedNext t std key = some (t', r) ∧ Kept t T t' ∧
      Closest .right (t.collated std) (t.nodesPast T std .right key.subscript) r := by
  obtain ⟨t', next, found, kept, closest⟩ := wf.keyNeighbour clueOk .right valid inhabited
  cases std with
  | false => exact ⟨t', next, found, kept, closest_stored closest⟩
  | true =>
    rw [lvAvlTreeKeyCollatedNext, if_pos rfl]
    by_cases isNull : key.subscript = nullSubscript
    · obtain ⟨first, done, start⟩ := wf.endNode .left
      obtain ⟨r, hopped, further⟩ := wf.hopNext (x := key.subscript) (r := first) (by
        simp only [isNull, true_or, and_true]
        exact start)
      refine ⟨t, r, ?_, .refl wf clueOk, further⟩
      rw [if_pos (TreeKeySubscr.isNullSubs_iff coherent |>.mpr isNull),
        show lvAvlTreeFirst t = some first from done]
      simp [hopped]
    · rw [← kept.rank] at closest
      obtain ⟨r, hopped, further⟩ := kept.wellFormed.hopNext (x := key.subscript) (r := next) (by
        simp only [isNull, false_or]
        exact closest)
      rw [LocalTree.nodesPast, kept.collated] at further
      refine ⟨t', r, ?_, kept, further⟩
      rw [if_neg fun null => isNull (TreeKeySubscr.isNullSubs_iff coherent |>.mp null),
        show lvAvlTreeKeyNext t key = some (t', next) from found]
      simp [hopped]

theorem nothing_before_null {x : LocalSubscript} (isNull : x = nullSubscript) :
    t.nodesPast T true .left x = ∅ := by
  ext b
  constructor
  · rintro ⟨_, past⟩
    rw [isNull, collate_null] at past
    exact absurd past not_lt_bot
  · intro inside
    cases inside

/-- The node in front of a node. -/
theorem collatedPrev_spec (wf : t.WellFormed T) (clueOk : t.ClueOk T) (std : Bool) {a : Addr}
    (member : a ∈ inorder T) :
    ∃ t' r, lvAvlTreeNodeCollatedPrev t std a = some (t', r) ∧ Kept t T t' ∧
      Closest .left (t.collated std) (t.nodesPast T std .left (t.rank a)) r := by
  obtain ⟨prev, done, closest⟩ := wf.neighbour .left member
  have stepped : lvAvlTreePrev t a = some prev := done
  cases std with
  | false =>
    refine ⟨t, prev, ?_, .refl wf clueOk, closest_stored closest⟩
    simp [lvAvlTreeNodeCollatedPrev, stepped]
  | true =>
    rw [lvAvlTreeNodeCollatedPrev, if_pos rfl]
    by_cases isNull : a ∈ t.nulls
    · rw [if_pos ((wf.isNull member).mpr isNull)]
      refine ⟨t, none, rfl, .refl wf clueOk, ?_⟩
      exact nothing_before_null isNull
    · rw [if_neg fun null => isNull ((wf.isNull member).mp null), stepped]
      exact wf.hopPrev clueOk isNull closest

/-- The node in front of a key. -/
theorem keyCollatedPrev_spec (wf : t.WellFormed T) (clueOk : t.ClueOk T) (std : Bool)
    {key : TreeKeySubscr} (valid : key.Valid) (coherent : key.Coherent) (inhabited : T ≠ .nil) :
    ∃ t' r, lvAvlTreeKeyCollatedPrev t std key = some (t', r) ∧ Kept t T t' ∧
      Closest .left (t.collated std) (t.nodesPast T std .left key.subscript) r := by
  obtain ⟨t', prev, found, kept, closest⟩ := wf.keyNeighbour clueOk .left valid inhabited
  cases std with
  | false => exact ⟨t', prev, found, kept, closest_stored closest⟩
  | true =>
    rw [lvAvlTreeKeyCollatedPrev, if_pos rfl]
    by_cases isNull : key.subscript = nullSubscript
    · rw [if_pos (TreeKeySubscr.isNullSubs_iff coherent |>.mpr isNull)]
      exact ⟨t, none, rfl, .refl wf clueOk, nothing_before_null isNull⟩
    · rw [if_neg fun null => isNull (TreeKeySubscr.isNullSubs_iff coherent |>.mp null),
        show lvAvlTreeKeyPrev t key = some (t', prev) from found]
      rw [← kept.rank] at closest
      obtain ⟨t'', r, hopped, further, last⟩ := kept.wellFormed.hopPrev kept.clue isNull closest
      rw [LocalTree.nodesPast, kept.collated] at last
      exact ⟨t'', r, hopped, kept.trans further, last⟩

/-! ## Ends of a level -/

/-- Where no node is null the two orders agree on the whole tree. -/
theorem closest_whole {side : Side} {r : Option Addr} {std : Bool}
    (closest : Closest side t.rank {b | b ∈ inorder T} r)
    (noNull : std = true → ∀ b ∈ inorder T, b ∉ t.nulls) :
    Closest side (t.collated std) {b | b ∈ inorder T} r := by
  apply closest.rerank
  intro a first b second past
  exact (collate_past (fun on => noNull on a first) fun on => noNull on b second).mpr past

/-- The first node in collation. -/
theorem collatedFirst_spec (wf : t.WellFormed T) (clueOk : t.ClueOk T) (std : Bool) :
    ∃ t' r, collatedFirst t std = some (t', r) ∧ Kept t T t' ∧
      Closest .right (t.collated std) {b | b ∈ inorder T} r := by
  cases std with
  | false =>
    obtain ⟨first, done, closest⟩ := wf.endNode .left
    have started : lvAvlTreeFirst t = some first := done
    refine ⟨t, first, ?_, .refl wf clueOk, closest_whole closest nofun⟩
    simp [collatedFirst, started]
  | true =>
    obtain ⟨t', r, parent, looked, kept, found⟩ := lookupNull_spec wf clueOk
    rcases found with ⟨n, rfl, member, isNull⟩ | ⟨rfl, noNull⟩
    · refine ⟨t', some n, by simp [collatedFirst, looked], kept, member, ?_⟩
      intro b alsoMember differ
      apply null_below isNull
      intro alsoNull
      exact differ (wf.rank_injective alsoMember member (alsoNull.trans isNull.symm))
    · obtain ⟨first, done, closest⟩ := kept.wellFormed.endNode .left
      have started : lvAvlTreeFirst t' = some first := done
      rw [kept.rank] at closest
      refine ⟨t', first, ?_, kept, closest_whole closest fun _ => noNull⟩
      simp [collatedFirst, looked, started]

/-- The last node in collation. -/
theorem collatedLast_spec (wf : t.WellFormed T) (std : Bool) :
    ∃ r, lvAvlTreeCollatedLast t std = some r ∧
      Closest .left (t.collated std) {b | b ∈ inorder T} r := by
  obtain ⟨last, done, closest⟩ := wf.endNode .right
  have started : lvAvlTreeLast t = some last := done
  cases last with
  | none => exact ⟨none, by simp [lvAvlTreeCollatedLast, started], closest⟩
  | some n =>
    have member : n ∈ inorder T := closest.1
    cases std with
    | false =>
      exact ⟨some n, by simp [lvAvlTreeCollatedLast, started], closest_whole closest nofun⟩
    | true =>
      by_cases isNull : n ∈ t.nulls
      · have marked := (wf.isNull member).mpr isNull
        obtain ⟨prev, stepped, before⟩ := wf.neighbour .left member
        have found : lvAvlTreePrev t n = some prev := stepped
        have others : Closest .left t.rank ({b | b ∈ inorder T} \ {n}) prev := closest.hop before
        -- The null node is the last in the stored order, so the one before it is the last
        -- in collation order.
        have notNull : ∀ b ∈ {b | b ∈ inorder T} \ {n}, b ∉ t.nulls := by
          intro b place alsoNull
          exact place.2 (wf.rank_injective place.1 member (alsoNull.trans isNull.symm))
        cases prev with
        | none =>
          refine ⟨some n, by simp [lvAvlTreeCollatedLast, started, marked, found], member, ?_⟩
          intro b alsoMember differ
          have empty : {b | b ∈ inorder T} \ {n} = ∅ := others
          exact absurd (empty ▸ ⟨alsoMember, differ⟩ : b ∈ (∅ : Set Addr)) (Set.notMem_empty b)
        | some p =>
          refine ⟨some p, by simp [lvAvlTreeCollatedLast, started, marked, found], others.1.1, ?_⟩
          intro b alsoMember differ
          by_cases same : b = n
          · rw [same]
            exact null_below isNull (notNull p others.1)
          · exact (collate_past (fun _ => notNull p others.1)
              fun _ => notNull b ⟨alsoMember, same⟩).mpr (others.2 b ⟨alsoMember, same⟩ differ)
      · have unmarked : LV_NODE_KEY_IS_NULL_SUBS (t.heap n) = false :=
          Bool.eq_false_of_not_eq_true fun marked => isNull ((wf.isNull member).mp marked)
        refine ⟨some n, by simp [lvAvlTreeCollatedLast, started, unmarked], member, ?_⟩
        intro b alsoMember differ
        by_cases alsoNull : b ∈ t.nulls
        · exact null_below alsoNull isNull
        · exact (collate_past (fun _ => isNull) fun _ => alsoNull).mpr
            (closest.2 b alsoMember differ)

/-! ## Whole traversals -/

/-- The nodes in collation order. -/
def LocalTree.collatedOrder (t : LocalTree) (T : BinaryTree Addr) (std : Bool) : List Addr :=
  let isNull := fun a => std && LV_NODE_KEY_IS_NULL_SUBS (t.heap a)
  (inorder T).filter isNull ++ (inorder T).filter fun a => !isNull a

theorem collatedOrder_perm (std : Bool) : (t.collatedOrder T std).Perm (inorder T) :=
  List.filter_append_perm _ _

/-- The nodes stand in collation order. -/
theorem collatedOrder_sorted (wf : t.WellFormed T) (std : Bool) :
    ((t.collatedOrder T std).map (t.collated std)).Pairwise (· < ·) := by
  have stored : (inorder T).Pairwise fun a b => t.rank a < t.rank b :=
    List.pairwise_map.mp wf.sorted
  have nulls {a : Addr} (member : a ∈ inorder T) :
      (std && LV_NODE_KEY_IS_NULL_SUBS (t.heap a)) = true ↔ std = true ∧ a ∈ t.nulls := by
    rw [Bool.and_eq_true, wf.isNull member]
  rw [List.pairwise_map, LocalTree.collatedOrder, List.pairwise_append]
  simp only [List.mem_filter]
  refine ⟨?_, ?_, ?_⟩
  · apply (stored.filter _).imp_of_mem
    intro a b first second smaller
    obtain ⟨firstMember, firstNull⟩ := List.mem_filter.mp first
    obtain ⟨secondMember, secondNull⟩ := List.mem_filter.mp second
    have same : t.rank a = t.rank b :=
      ((nulls firstMember).mp firstNull).2.trans ((nulls secondMember).mp secondNull).2.symm
    exact absurd smaller (by rw [same]; exact lt_irrefl _)
  · apply (stored.filter _).imp_of_mem
    intro a b first second smaller
    obtain ⟨firstMember, firstOther⟩ := List.mem_filter.mp first
    obtain ⟨secondMember, secondOther⟩ := List.mem_filter.mp second
    have other {c : Addr} (member : c ∈ inorder T)
        (unmarked : (!(std && LV_NODE_KEY_IS_NULL_SUBS (t.heap c))) = true) (on : std = true) :
        c ∉ t.nulls := by
      intro isNull
      rw [(nulls member).mpr ⟨on, isNull⟩] at unmarked
      cases unmarked
    have past : Side.right.Past (t.rank a) (t.rank b) := smaller
    exact (collate_past (other firstMember firstOther) (other secondMember secondOther)).mpr past
  · rintro a ⟨firstMember, firstNull⟩ b ⟨secondMember, secondOther⟩
    obtain ⟨on, isNull⟩ := (nulls firstMember).mp firstNull
    subst on
    apply null_below isNull
    intro alsoNull
    rw [(nulls secondMember).mpr ⟨rfl, alsoNull⟩] at secondOther
    cases secondOther

/-- A routine that finds the closest node past each node visits a sorted list from any
of its entries to its end. -/
theorem visits_sorted {next : LocalTree → Addr → Option (LocalTree × Option Addr)} {std : Bool}
    {side : Side} {order : List Addr} (sorted : (order.map (t.collated std)).Pairwise side.Past)
    (all : ∀ b, b ∈ order ↔ b ∈ inorder T)
    (step : ∀ t', Kept t T t' → ∀ a ∈ inorder T, ∃ t'' r, next t' a = some (t'', r) ∧
      Kept t' T t'' ∧ Closest side (t'.collated std) (t'.nodesPast T std side (t'.rank a)) r)
    (front rest : List Addr) (suffix : order = front ++ rest) (t' : LocalTree) (kept : Kept t T t') :
    Visits next t' rest.head? rest := by
  induction rest generalizing front t' with
  | nil => exact .stops t'
  | cons a back ih =>
    have member : a ∈ inorder T := (all a).mp (by rw [suffix]; simp)
    obtain ⟨t'', r, done, again, closest⟩ := step t' kept a member
    have follows : r = back.head? := by
      apply closest.unique
      have here := sorted
      rw [suffix] at here
      have following := Closest.next here
      rw [← suffix] at following
      simp only [all] at following
      rw [LocalTree.nodesPast, kept.collated, kept.rank]
      exact following
    apply Visits.visits done
    rw [follows]
    exact ih (front ++ [a]) (by simp [suffix]) t'' (kept.trans again)

end Collation

/-- Under either collation of the null string: the nodes of a level, visited from the
first by the routine for the next node, come each once in collation order, and
backwards from the last in the reverse order. The routines that start from a key find
the closest node on their side, whether the key is there or not. -/
theorem collated_traversal_is_exact {t : LocalTree} {T : BinaryTree Addr} (wf : t.WellFormed T)
    (clueOk : t.ClueOk T) (std : Bool) :
    ∃ order : List Addr, order.Perm (inorder T) ∧
      (order.map (t.collated std)).Pairwise (· < ·) ∧
      (∃ t' first, collatedFirst t std = some (t', first) ∧
        Visits (fun t n => (lvAvlTreeNodeCollatedNext t std n).map fun r => (t, r)) t' first order) ∧
      (∃ last, lvAvlTreeCollatedLast t std = some last ∧
        Visits (fun t n => lvAvlTreeNodeCollatedPrev t std n) t last order.reverse) ∧
      ∀ key : TreeKeySubscr, key.Valid → key.Coherent → T ≠ .nil →
        (∃ t' r, lvAvlTreeKeyCollatedNext t std key = some (t', r) ∧
          Closest .right (t.collated std) (t.nodesPast T std .right key.subscript) r) ∧
        ∃ t' r, lvAvlTreeKeyCollatedPrev t std key = some (t', r) ∧
          Closest .left (t.collated std) (t.nodesPast T std .left key.subscript) r := by
  have sorted := collatedOrder_sorted wf std
  have all (b : Addr) : b ∈ t.collatedOrder T std ↔ b ∈ inorder T :=
    (collatedOrder_perm std).mem_iff
  have forward : ((t.collatedOrder T std).map (t.collated std)).Pairwise Side.right.Past := sorted
  have reversed : ((t.collatedOrder T std).reverse.map (t.collated std)).Pairwise Side.left.Past := by
    rw [List.map_reverse, List.pairwise_reverse]
    exact sorted
  refine ⟨t.collatedOrder T std, collatedOrder_perm std, sorted, ?_, ?_, ?_⟩
  · obtain ⟨t', first, done, kept, closest⟩ := collatedFirst_spec wf clueOk std
    refine ⟨t', first, done, ?_⟩
    have isHead : first = (t.collatedOrder T std).head? := by
      apply closest.unique
      simp only [← all]
      exact Closest.head forward
    rw [isHead]
    refine visits_sorted forward all ?_ [] _ rfl t' kept
    intro t'' again a member
    obtain ⟨r, stepped, past⟩ := collatedNext_spec again.wellFormed std member
    exact ⟨t'', r, by simp only [stepped, Option.map_some], .refl again.wellFormed again.clue, past⟩
  · obtain ⟨last, done, closest⟩ := collatedLast_spec wf std
    refine ⟨last, done, ?_⟩
    have backward (b : Addr) : b ∈ (t.collatedOrder T std).reverse ↔ b ∈ inorder T :=
      List.mem_reverse.trans (all b)
    have isHead : last = (t.collatedOrder T std).reverse.head? := by
      apply closest.unique
      simp only [← backward]
      exact Closest.head reversed
    rw [isHead]
    refine visits_sorted reversed backward ?_ [] _ rfl t (.refl wf clueOk)
    intro t'' again a member
    exact collatedPrev_spec again.wellFormed again.clue std member
  · intro key valid coherent inhabited
    obtain ⟨t', r, done, _, closest⟩ := keyCollatedNext_spec wf clueOk std valid coherent inhabited
    obtain ⟨t'', r', done', _, closest'⟩ :=
      keyCollatedPrev_spec wf clueOk std valid coherent inhabited
    exact ⟨⟨t', r, done, closest⟩, t'', r', done', closest'⟩

/-- A level with a number and the null string, which the tree keeps after the number. -/
theorem collated_traversal_is_exact_with_null : ∃ (t : LocalTree) (T : BinaryTree Addr),
    t.lvt.avl_root = some 3 ∧ (t.heap 3).avl_left = some 4 ∧ t.collated true 3 = ⊥ ∧
      ∃ order : List Addr, order.Perm (inorder T) ∧
        (order.map (t.collated true)).Pairwise (· < ·) ∧
        (∃ t' first, collatedFirst t true = some (t', first) ∧
          Visits (fun t n => (lvAvlTreeNodeCollatedNext t true n).map fun r => (t, r)) t' first
            order) ∧
        (∃ last, lvAvlTreeCollatedLast t true = some last ∧
          Visits (fun t n => lvAvlTreeNodeCollatedPrev t true n) t last order.reverse) ∧
        ∀ key : TreeKeySubscr, key.Valid → key.Coherent → T ≠ .nil →
          (∃ t' r, lvAvlTreeKeyCollatedNext t true key = some (t', r) ∧
            Closest .right (t.collated true) (t.nodesPast T true .right key.subscript) r) ∧
          ∃ t' r, lvAvlTreeKeyCollatedPrev t true key = some (t', r) ∧
            Closest .left (t.collated true) (t.nodesPast T true .left key.subscript) r := by
  let blank : LvTreeNode := ⟨literal_zero, none, literal_zero.mvtype, false, .even, .left, false,
    0, false, 0, 0, [], none, none, none⟩
  let second : TreeKeySubscr := ⟨literal_zero, true⟩
  have created : Session.Reachable _ := .create (fun _ => blank) ⟨7, some 9, none, none, none⟩
  have missed : Session.Reachable _ :=
    .call (.lookup literal_null none) created ⟨nofun, nofun⟩ rfl
  have inserted : Session.Reachable _ :=
    .call (.insert 3) missed ⟨⟨literal_null, none, rfl⟩, LocalTree.not_hasNode rfl 3⟩ rfl
  have missedSecond : Session.Reachable _ :=
    .call (.lookup second none) inserted
      ⟨fun _ => .inl ⟨rfl, rfl, by decide⟩, fun _ prepared => nomatch prepared⟩ rfl
  have both : Session.Reachable _ :=
    .call (.insert 4) missedSecond ⟨⟨second, some 3, rfl⟩, fun present =>
      absurd (LocalTree.eq_of_hasNode rfl (by intro s; cases s <;> rfl) present) (by decide)⟩ rfl
  obtain ⟨T, valid⟩ := both.valid
  exact ⟨_, T, rfl, rfl, if_pos ⟨rfl, rfl⟩, collated_traversal_is_exact valid.wellFormed
    (valid.clue fun _ prepared => nomatch prepared) true⟩

end Ydb
