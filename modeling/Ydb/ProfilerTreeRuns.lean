import Ydb.ProfilerTreeBalance
import Mathlib.Data.Prod.Lex
import Mathlib.Order.Basic

/-!
# Insertions into the profiler tree

Names are compared in the direction opposite to that of line numbers, but the comparison is a
linear order. With it the tree stays a search tree, and with the balance of one insertion every
sequence of insertions leaves a balanced tree with one node for each line.
-/

namespace Ydb.ProfilerTree

open Lib BinaryTree Hint

/-! ## The order of the keys -/

/-- Names in descending order, then lines in ascending order. -/
abbrev TraceKey := (List Nat)ᵒᵈ ×ₗ (List Nat)ᵒᵈ ×ₗ ℤ

/-- What the order compares. -/
def trace_entry.key (e : trace_entry) : TraceKey :=
  toLex (OrderDual.toDual (e.rout_name.map UInt8.toNat),
    toLex (OrderDual.toDual (e.label_name.map UInt8.toNat), e.line_num))

theorem map_toNat_injective {x y : List UInt8} (same : x.map UInt8.toNat = y.map UInt8.toNat) : x = y :=
  List.map_injective_iff.mpr (fun _ _ equal => UInt8.toNat_inj.mp equal) same

theorem trace_entry.key_injective {e f : trace_entry} (same : e.key = f.key) : e = f := by
  have parts := congrArg ofLex same
  simp only [trace_entry.key, ofLex_toLex, Prod.mk.injEq, toLex_inj] at parts
  obtain ⟨rout, label, line⟩ := parts
  have rout' := map_toNat_injective (OrderDual.toDual_inj.mp rout)
  have label' := map_toNat_injective (OrderDual.toDual_inj.mp label)
  obtain ⟨_, _, _, _, _⟩ := e
  obtain ⟨_, _, _, _, _⟩ := f
  dsimp only at rout' label' line
  subst rout' label' line
  rfl

theorem compare_orders (node : mprof_node) (arg : trace_entry) :
    Orders (mprof_tree_compare node arg) arg.key node.e.key := by
  have line : int4Value (arg.line_num - node.e.line_num) = arg.line_num - node.e.line_num := by
    have first := arg.least
    have second := arg.most
    have third := node.e.least
    have fourth := node.e.most
    exact int4Value_of_lt (by omega) (by omega)
  unfold Orders mprof_tree_compare trace_entry.key
  simp only [Prod.Lex.toLex_lt_toLex, OrderDual.toDual_lt_toDual, OrderDual.toDual_inj, toLex_inj, Prod.mk.injEq, line]
  rcases MEMVCMP_orders node.e.rout_name arg.rout_name with ⟨less, below⟩ | ⟨none, equal⟩ | ⟨more, above⟩
  · rw [if_neg (by omega)]
    exact .inl ⟨less, .inl below⟩
  · rw [if_pos none]
    rcases MEMVCMP_orders node.e.label_name arg.label_name with ⟨less', below'⟩ | ⟨none', equal'⟩ | ⟨more', above'⟩
    · rw [if_neg (by omega)]
      exact .inl ⟨less', .inr ⟨equal.symm, .inl below'⟩⟩
    · rw [if_pos none']
      rcases lt_trichotomy arg.line_num node.e.line_num with before | same | behind
      · rw [if_pos (by omega), if_neg (by omega)]
        exact .inl ⟨by decide, .inr ⟨equal.symm, .inr ⟨equal'.symm, before⟩⟩⟩
      · rw [if_neg (by omega)]
        exact .inr (.inl ⟨by omega, equal.symm, equal'.symm, same⟩)
      · rw [if_pos (by omega), if_pos (by omega)]
        exact .inr (.inr ⟨by decide, .inr ⟨equal, .inr ⟨equal', behind⟩⟩⟩)
    · rw [if_neg (by omega)]
      exact .inr (.inr ⟨more', .inr ⟨equal, .inl above'⟩⟩)
  · rw [if_neg (by omega)]
    exact .inr (.inr ⟨more, .inl above⟩)

theorem compare_eq_zero_iff {node : mprof_node} {arg : trace_entry} : mprof_tree_compare node arg = 0 ↔ node.e = arg := by
  constructor
  · intro zero
    rcases compare_orders node arg with ⟨less, _⟩ | ⟨_, same⟩ | ⟨more, _⟩
    · omega
    · exact (trace_entry.key_injective same).symm
    · omega
  · rintro rfl
    rcases compare_orders node node.e with ⟨_, below⟩ | ⟨zero, _⟩ | ⟨_, above⟩
    · exact absurd below (lt_irrefl _)
    · exact zero
    · exact absurd above (lt_irrefl _)

theorem compare_pos_iff {node : mprof_node} {arg : trace_entry} : 0 < mprof_tree_compare node arg ↔ node.e.key < arg.key := by
  rcases compare_orders node arg with ⟨less, below⟩ | ⟨zero, same⟩ | ⟨more, above⟩
  · exact iff_of_false (by omega) (lt_asymm below)
  · rw [same]
    exact iff_of_false (by omega) (lt_irrefl _)
  · exact iff_of_true more above

/-- The new key lies on the side of each node that the path takes. -/
theorem Marked.past {arg : trace_entry} {f : Frame mprof_node} (marked : Marked arg f) :
    f.side.Past f.elem.e.key arg.key := by
  rw [marked.side]
  rcases compare_orders f.elem arg with ⟨less, below⟩ | ⟨zero, _⟩ | ⟨more, above⟩
  · rw [direction, if_neg (by omega)]
    exact below
  · exact absurd zero marked.differs
  · rw [direction, if_pos more]
    exact above

/-! ## Search order -/

/-- The key of a node. -/
def mprof_node.key (n : mprof_node) : TraceKey := n.e.key

/-- The place the path leads to is the place of the key. -/
theorem path_between {arg : trace_entry} {fs : List (Frame mprof_node)} (marked : ∀ f ∈ fs, Marked arg f)
    {t : mprof_tree} (sorted : SortedBy mprof_node.key (plug fs t)) :
    (∀ b ∈ before fs, b.key < arg.key) ∧ ∀ b ∈ after fs, arg.key < b.key := by
  induction fs generalizing t with
  | nil => exact ⟨by simp [before], by simp [after]⟩
  | cons f up ih =>
    obtain ⟨front, back⟩ := ih (fun g member => marked g (List.mem_cons_of_mem f member)) sorted
    have past := (marked f (by simp)).past
    have position := (SortedBy.position (s := f.side) sorted).2.1
    obtain ⟨elem, side, sibling⟩ := f
    cases side with
    | left =>
      constructor
      · intro b member
        apply front b
        simpa [before, Side.pick] using member
      · intro b member
        simp only [after, Side.pick, List.cons_append, List.mem_cons, List.mem_append] at member
        rcases member with rfl | inside | behind
        · exact past
        · exact lt_trans past (position b inside)
        · exact back b behind
    | right =>
      constructor
      · intro b member
        simp only [before, Side.pick, List.mem_append, List.mem_singleton] at member
        rcases member with inFront | inside | rfl
        · exact front b inFront
        · exact lt_trans (position b inside) past
        · exact past
      · intro b member
        apply back b
        simpa [after, Side.pick] using member

/-! ## One insertion -/

/-- A balanced search tree with addresses that differ. -/
structure Valid (t : mprof_tree) : Prop where
  sorted : SortedBy mprof_node.key t
  balanced : Balanced mprof_node.desc_dir t
  distinct : ((inorder t).map mprof_node.addr).Nodup

theorem keys_eq (t : mprof_tree) : (inorder t).map mprof_node.key = (nodes t).map fun n => n.2.1.key := by
  rw [nodes, List.map_map]
  rfl

theorem addrs_eq (t : mprof_tree) : (inorder t).map mprof_node.addr = (nodes t).map fun n => n.1 := by
  rw [nodes, List.map_map]
  rfl

theorem SameLinks.valid {t u : mprof_tree} (same : SameLinks t u) (valid : Valid t) : Valid u where
  sorted := by
    have keys := valid.sorted
    rwa [SortedBy, keys_eq, same.nodes, ← keys_eq] at keys
  balanced := same.balanced valid.balanced
  distinct := by
    have addrs := valid.distinct
    rwa [addrs_eq, same.nodes, ← addrs_eq] at addrs

/-- The nodes around a place. -/
theorem nodes_plug (fs : List (Frame mprof_node)) (t : mprof_tree) :
    nodes (plug fs t) = (before fs).map mprof_node.ident ++ (nodes t ++ (after fs).map mprof_node.ident) := by
  rw [nodes, inorder_plug, List.map_append, List.map_append]
  rfl

/-- The frames at and below `path_top`, and those above. -/
theorem TopOf.split {fs : List (Frame mprof_node)} {path_top : Nat} (topOf : TopOf fs 0 0 path_top) :
    (∃ inner f outer, fs = inner ++ f :: outer ∧ (∀ g ∈ inner, g.elem.desc_dir = .even) ∧
      f.elem.desc_dir ≠ .even ∧ fs.take (fs.length - path_top) = inner ++ [f] ∧
      fs.drop (fs.length - path_top) = outer) ∨
    ((∀ g ∈ fs, g.elem.desc_dir = .even) ∧ fs.take (fs.length - path_top) = fs ∧
      fs.drop (fs.length - path_top) = []) := by
  rcases topOf with ⟨inner, f, outer, rfl, even, uneven, same⟩ | ⟨even, same⟩
  · have count : (inner ++ f :: outer).length - path_top = (inner ++ [f]).length := by
      simp only [List.length_append, List.length_cons, List.length_nil, same]
      omega
    have whole : inner ++ f :: outer = (inner ++ [f]) ++ outer := by simp
    refine .inl ⟨inner, f, outer, rfl, even, uneven, ?_, ?_⟩
    · rw [count, whole, List.take_left]
    · rw [count, whole, List.drop_left]
  · rw [same, Nat.sub_zero]
    exact .inr ⟨even, List.take_length, List.drop_length⟩

/-- Rebalancing at `path_top` balances the whole tree, and keeps the order of the nodes. -/
theorem rebalance_at {arg : trace_entry} {fs : List (Frame mprof_node)} {new : mprof_node} {path_top : Nat}
    (inserted : Inserted arg new) (marked : ∀ f ∈ fs, Marked arg f) (topOf : TopOf fs 0 0 path_top)
    (balanced : Balanced mprof_node.desc_dir (plug fs .nil)) :
    ∃ r, mprof_tree_rebalance (plug (fs.take (fs.length - path_top)) (.node new .nil .nil)) arg = some r ∧
      Balanced mprof_node.desc_dir (plug (fs.drop (fs.length - path_top)) r) ∧
      nodes (plug (fs.drop (fs.length - path_top)) r) = nodes (plug fs (.node new .nil .nil)) := by
  rcases topOf.split with ⟨inner, f, outer, rfl, even, uneven, front, back⟩ | ⟨even, front, back⟩
  · rw [front, back]
    rw [plug_append, plug_cons, balanced_plug] at balanced
    obtain ⟨outside, inside⟩ := balanced
    obtain ⟨r, found, balanced', height, kept⟩ := rebalance_frames inserted
      (fun g member => marked g (List.mem_append_left _ member)) (marked f (by simp)) even uneven inside
    refine ⟨r, ?_, ?_, ?_⟩
    · rw [plug_append, plug_cons, plug_nil]
      exact found
    · rw [balanced_plug, height]
      exact ⟨outside, balanced'⟩
    · rw [plug_append, plug_cons]
      exact nodes_plug_congr kept
  · rw [front, back]
    exact rebalance_even inserted marked even balanced

/-- The nodes in front of the place where the way down ends, and those behind it. -/
theorem missing_place {t : mprof_tree} (valid : Valid t) {arg : trace_entry} {fs : List (Frame mprof_node)}
    (marked : ∀ f ∈ fs, Marked arg f) (same : SameLinks (plug fs .nil) t) :
    nodes t = (before fs).map mprof_node.ident ++ (after fs).map mprof_node.ident ∧
      (∀ b ∈ before fs, b.key < arg.key) ∧ ∀ b ∈ after fs, arg.key < b.key := by
  have old : Valid (plug fs .nil) := SameLinks.valid same.symm valid
  refine ⟨?_, path_between marked old.sorted⟩
  rw [← same.nodes, nodes_plug]
  rfl

theorem absent_of_missing {t : mprof_tree} (valid : Valid t) {arg : trace_entry}
    (missing : (descend arg t [] 0).tree = .nil) : ∀ n ∈ inorder t, n.e ≠ arg := by
  obtain ⟨fs, found⟩ := descend_spec arg t [] 0
  have same := found.same
  rw [missing] at same
  obtain ⟨whole, front, back⟩ := missing_place valid found.marked same
  intro n member equal
  have inside : n.ident ∈ nodes t := List.mem_map_of_mem member
  rw [whole, ← List.map_append] at inside
  obtain ⟨b, around, same'⟩ := List.mem_map.mp inside
  have key : b.key = arg.key := by
    rw [← equal]
    exact congrArg (fun i => i.2.1.key) same'
  rcases List.mem_append.mp around with inFront | inBack
  · exact absurd key (ne_of_lt (front b inFront))
  · exact absurd key (ne_of_gt (back b inBack))

/-- A node with the key is returned, and only hints change. -/
theorem insert_of_found {t : mprof_tree} (valid : Valid t) {arg : trace_entry} {a : mprof_node} {l r : mprof_tree}
    (stopped : (descend arg t [] 0).tree = .node a l r) (fresh : Nat) :
    ∃ t', mprof_tree_insert t arg fresh = some (t', a.addr) ∧ Valid t' ∧ SameLinks t' t ∧
      ∃ n ∈ inorder t, n.e = arg ∧ n.addr = a.addr := by
  obtain ⟨fs, found⟩ := descend_spec arg t [] 0
  have frames := found.frames
  have same := found.same
  have stops := found.stops a
  rw [List.append_nil] at frames
  rw [stopped] at same stops
  have equal : a.e = arg := compare_eq_zero_iff.mp (stops rfl)
  have inside : a.ident ∈ nodes t := by
    rw [← same.nodes, nodes_plug]
    simp [nodes, inorder]
  obtain ⟨n, member, same'⟩ := List.mem_map.mp inside
  refine ⟨plug fs (.node a l r), ?_, SameLinks.valid same.symm valid, same, n, member,
    (congrArg (fun i => i.2.1) same').trans equal, congrArg (fun i => i.1) same'⟩
  unfold mprof_tree_insert
  dsimp only
  rw [stopped, frames]

/-- A new node is put in the place of its key. -/
theorem insert_of_missing {t : mprof_tree} (valid : Valid t) {arg : trace_entry}
    (missing : (descend arg t [] 0).tree = .nil) {fresh : Nat}
    (unused : fresh ∉ (inorder t).map mprof_node.addr) :
    ∃ t', mprof_tree_insert t arg fresh = some (t', fresh) ∧ Valid t' ∧
      ∃ l r, nodes t = l ++ r ∧ nodes t' = l ++ (fresh, arg, []) :: r := by
  obtain ⟨fs, found⟩ := descend_spec arg t [] 0
  have frames := found.frames
  have same := found.same
  rw [List.append_nil] at frames
  rw [missing] at same
  obtain ⟨whole, front, back⟩ := missing_place valid found.marked same
  have old : Valid (plug fs .nil) := SameLinks.valid same.symm valid
  have inserted : Inserted arg { new_node fresh arg with ins_path_hint := IS_INS_NODE } :=
    ⟨rfl, rfl, compare_eq_zero_iff.mpr rfl⟩
  obtain ⟨r, rebalanced, balanced, kept⟩ := rebalance_at inserted found.marked found.topOf old.balanced
  have filled : nodes (plug fs (.node { new_node fresh arg with ins_path_hint := IS_INS_NODE } .nil .nil)) =
      (before fs).map mprof_node.ident ++ (fresh, arg, []) :: (after fs).map mprof_node.ident := by
    rw [nodes_plug]
    rfl
  rw [filled] at kept
  have keys := old.sorted
  rw [SortedBy, inorder_plug, inorder, List.nil_append, List.map_append, List.pairwise_append] at keys
  obtain ⟨sortedFront, sortedBack, across⟩ := keys
  refine ⟨plug (fs.drop (fs.length - (descend arg t [] 0).path_top)) r, ?_, ⟨?_, balanced, ?_⟩, _, _, whole, kept⟩
  · unfold mprof_tree_insert
    dsimp only
    rw [missing, frames]
    simp only [rebalanced, Option.bind_eq_bind, Option.bind_some, Option.pure_def]
  · rw [SortedBy, keys_eq, kept, List.map_append, List.map_cons, List.map_map, List.map_map]
    refine List.pairwise_append.mpr ⟨sortedFront, List.pairwise_cons.mpr ⟨?_, sortedBack⟩, ?_⟩
    · intro k member
      obtain ⟨b, inBack, rfl⟩ := List.mem_map.mp member
      exact back b inBack
    · intro k inFront k' member
      rcases List.mem_cons.mp member with rfl | inBack
      · obtain ⟨b, inFront', rfl⟩ := List.mem_map.mp inFront
        exact front b inFront'
      · exact across k inFront k' inBack
  · have distinct := valid.distinct
    rw [addrs_eq, whole, List.map_append] at unused distinct
    rw [addrs_eq, kept, List.map_append, List.map_cons, List.nodup_middle, List.nodup_cons]
    exact ⟨unused, distinct⟩

theorem mem_entries {t : mprof_tree} {e : trace_entry} : (∃ n ∈ inorder t, n.e = e) ↔ ∃ i ∈ nodes t, i.2.1 = e := by
  simp [nodes, mprof_node.ident]

/-- After an insertion the key is there, with the keys from before. -/
theorem insert_spec {t : mprof_tree} (valid : Valid t) (arg : trace_entry) {fresh : Nat}
    (unused : ∀ n ∈ inorder t, n.addr < fresh) :
    ∃ t' addr, mprof_tree_insert t arg fresh = some (t', addr) ∧ Valid t' ∧
      (∀ n ∈ inorder t', n.addr < fresh + 1) ∧
      ∀ e, (∃ n ∈ inorder t', n.e = e) ↔ (∃ n ∈ inorder t, n.e = e) ∨ e = arg := by
  have below : ∀ i ∈ nodes t, i.1 < fresh := by
    intro i inside
    obtain ⟨b, member, same⟩ := List.mem_map.mp inside
    rw [← same]
    exact unused b member
  cases stopped : (descend arg t [] 0).tree with
  | nil =>
    have new : fresh ∉ (inorder t).map mprof_node.addr := by
      intro used
      obtain ⟨n, member, same⟩ := List.mem_map.mp used
      exact absurd (unused n member) (by omega)
    obtain ⟨t', found, valid', l, r, whole, whole'⟩ := insert_of_missing valid stopped new
    refine ⟨t', fresh, found, valid', ?_, ?_⟩
    · intro n member
      have inside : n.ident ∈ nodes t' := List.mem_map_of_mem member
      rw [whole', List.mem_append, List.mem_cons] at inside
      rw [whole] at below
      change n.ident.1 < fresh + 1
      rcases inside with inFront | same | inBack
      · exact Nat.lt_succ_of_lt (below _ (List.mem_append_left r inFront))
      · rw [same]
        exact Nat.lt_succ_self fresh
      · exact Nat.lt_succ_of_lt (below _ (List.mem_append_right l inBack))
    · intro e
      rw [mem_entries, mem_entries, whole, whole']
      simp only [List.mem_append, List.mem_cons]
      constructor
      · rintro ⟨i, inFront | rfl | inBack, same⟩
        · exact .inl ⟨i, .inl inFront, same⟩
        · exact .inr same.symm
        · exact .inl ⟨i, .inr inBack, same⟩
      · rintro (⟨i, inFront | inBack, same⟩ | rfl)
        · exact ⟨i, .inl inFront, same⟩
        · exact ⟨i, .inr (.inr inBack), same⟩
        · exact ⟨_, .inr (.inl rfl), rfl⟩
  | node a lower higher =>
    obtain ⟨t', found, valid', same, n, member, equal, _⟩ := insert_of_found valid stopped fresh
    refine ⟨t', a.addr, found, valid', ?_, ?_⟩
    · intro b inside
      have old : b.ident ∈ nodes t := by
        rw [← same.nodes]
        exact List.mem_map_of_mem inside
      exact Nat.lt_succ_of_lt (below _ old)
    · intro e
      rw [mem_entries, same.nodes, ← mem_entries]
      constructor
      · exact .inl
      · rintro (old | rfl)
        · exact old
        · exact ⟨n, member, equal⟩

/-! ## Runs -/

/-- A sequence of insertions, where every call has an address that was not used. -/
def insertAll : List trace_entry → mprof_tree → Nat → Option mprof_tree
  | [], tree, _ => some tree
  | arg :: rest, tree, fresh => do
    let (tree, _) ← mprof_tree_insert tree arg fresh
    insertAll rest tree (fresh + 1)

theorem insertAll_spec (args : List trace_entry) {t : mprof_tree} (valid : Valid t) (fresh : Nat)
    (unused : ∀ n ∈ inorder t, n.addr < fresh) :
    ∃ t', insertAll args t fresh = some t' ∧ Valid t' ∧
      ∀ e, (∃ n ∈ inorder t', n.e = e) ↔ (∃ n ∈ inorder t, n.e = e) ∨ e ∈ args := by
  induction args generalizing t fresh with
  | nil => exact ⟨t, rfl, valid, fun e => by simp⟩
  | cons arg rest ih =>
    obtain ⟨t1, addr, found, valid1, unused1, contents1⟩ := insert_spec valid arg unused
    obtain ⟨t', rest', valid', contents⟩ := ih valid1 _ unused1
    refine ⟨t', ?_, valid', ?_⟩
    · rw [insertAll, found, Option.bind_eq_bind, Option.bind_some]
      exact rest'
    · intro e
      rw [contents, contents1, List.mem_cons, or_assoc]

theorem mprof_tree_walk_eq (t : mprof_tree) : mprof_tree_walk t = (inorder t).flatMap visits := by
  induction t with
  | nil => rfl
  | node a l r leftHypothesis rightHypothesis =>
    rw [mprof_tree_walk, inorder, leftHypothesis, rightHypothesis, List.flatMap_append, List.flatMap_cons]

theorem valid_nil : Valid .nil where
  sorted := List.Pairwise.nil
  balanced := trivial
  distinct := List.nodup_nil

/-- After any insertions the tree is a balanced search tree with a node for each key. Inserting a key again
returns its node and leaves the links, and a walk visits the nodes in order. -/
theorem mprof_tree_of_inserts (args : List trace_entry) :
    ∃ t, insertAll args .nil 0 = some t ∧
      (inorder t).Pairwise (fun a b => 0 < mprof_tree_compare a b.e) ∧
      Balanced mprof_node.desc_dir t ∧
      (∀ e, (∃ n ∈ inorder t, n.e = e) ↔ e ∈ args) ∧
      (∀ e ∈ args, ∀ fresh, ∃ n ∈ inorder t, ∃ t', n.e = e ∧
        mprof_tree_insert t e fresh = some (t', n.addr) ∧ SameLinks t' t) ∧
      mprof_tree_walk t = (inorder t).flatMap visits ∧ ((inorder t).map mprof_node.addr).Nodup := by
  obtain ⟨t, found, valid, contents⟩ := insertAll_spec args valid_nil 0 (by simp [inorder])
  have contents' : ∀ e, (∃ n ∈ inorder t, n.e = e) ↔ e ∈ args := by
    intro e
    rw [contents]
    simp [inorder]
  refine ⟨t, found, ?_, valid.balanced, contents', ?_, mprof_tree_walk_eq t, valid.distinct⟩
  · have sorted := valid.sorted
    rw [SortedBy, List.pairwise_map] at sorted
    exact sorted.imp compare_pos_iff.mpr
  · intro e member fresh
    cases stopped : (descend e t [] 0).tree with
    | nil =>
      obtain ⟨n, inside, equal⟩ := (contents' e).mpr member
      exact absurd equal (absent_of_missing valid stopped n inside)
    | node a l r =>
      obtain ⟨t', inserted, _, same, n, inside, equal, addr⟩ := insert_of_found valid stopped fresh
      rw [← addr] at inserted
      exact ⟨n, inside, t', equal, inserted, same⟩

end Ydb.ProfilerTree
