import Ydb.ProfilerTree

/-!
# Balance of the profiler tree

On the way down from `path_top` every further node is even, so the subtree that holds the new
node has grown by one everywhere on the path. The hints lead along this path: its nodes were
marked just now, and so were the nodes beside them, whatever earlier insertions left elsewhere.
-/

namespace Ydb.ProfilerTree

open Lib BinaryTree Hint

/-- What stays of a node when it is moved. -/
def mprof_node.ident (n : mprof_node) : Nat × trace_entry × List Nat := (n.addr, n.e, n.loop_link)

/-- The nodes from left to right. -/
def nodes (t : mprof_tree) : List (Nat × trace_entry × List Nat) := (inorder t).map mprof_node.ident

theorem nodes_branch (s : Side) (a : mprof_node) (near far : mprof_tree) :
    nodes (branch s a near far) = s.pick (nodes near ++ a.ident :: nodes far) (nodes far ++ a.ident :: nodes near) := by
  cases s <;> simp [nodes, branch, inorder, Side.pick]

@[simp] theorem links_branch (s : Side) (a : mprof_node) (near far : mprof_tree) :
    links s (branch s a near far) = some (a, near, far) := by
  cases s <;> rfl

/-- A frame whose node is uneven towards the position. -/
def lean (f : Frame mprof_node) : Frame mprof_node :=
  { f with elem := { f.elem with desc_dir := .toward f.side } }

theorem nodes_plug_congr {fs : List (Frame mprof_node)} {t u : mprof_tree} (same : nodes t = nodes u) :
    nodes (plug fs t) = nodes (plug fs u) := by
  induction fs generalizing t u with
  | nil => exact same
  | cons f up ih =>
    apply ih
    rw [Frame.fill, Frame.fill, nodes_branch, nodes_branch, same]

theorem nodes_plug_lean (fs : List (Frame mprof_node)) (t : mprof_tree) :
    nodes (plug (fs.map lean) t) = nodes (plug fs t) := by
  induction fs generalizing t with
  | nil => rfl
  | cons f up ih =>
    rw [List.map_cons, plug_cons, plug_cons, ih]
    apply nodes_plug_congr
    rw [Frame.fill, Frame.fill, nodes_branch, nodes_branch]
    rfl

/-! ## Growth -/

/-- Even frames around a subtree that grows by one lean towards it, and grow by one. -/
theorem balanced_lean {fs : List (Frame mprof_node)} {n : Nat} (even : ∀ f ∈ fs, f.elem.desc_dir = .even)
    (balanced : BalancedFrames mprof_node.desc_dir fs n) {t u : mprof_tree} (old : u.height = n)
    (grown : t.height = n + 1) (inside : Balanced mprof_node.desc_dir t) :
    Balanced mprof_node.desc_dir (plug (fs.map lean) t) ∧
      (plug (fs.map lean) t).height = (plug fs u).height + 1 := by
  induction fs generalizing n t u with
  | nil => exact ⟨inside, by rw [List.map_nil, plug_nil, plug_nil, grown, old]⟩
  | cons f up ih =>
    obtain ⟨fits, sibling, outer⟩ := balanced
    rw [Tilt.fits_branch, even f (by simp)] at fits
    have level : n = f.sibling.height := by
      rcases fits with ⟨_, same⟩ | ⟨impossible, _⟩ | ⟨impossible, _⟩
      · exact same
      · cases impossible
      · cases impossible
    rw [List.map_cons, plug_cons, plug_cons]
    apply ih (fun g member => even g (List.mem_cons_of_mem f member)) outer
    · rw [Frame.fill, height_branch, old]
    · rw [lean, Frame.fill, height_branch, grown]
      dsimp only
      omega
    · rw [lean, Frame.fill, balanced_branch, Tilt.fits_branch, grown]
      exact ⟨.inr (.inl ⟨rfl, by dsimp only; omega⟩), inside, sibling⟩

/-! ## Hints -/

/-- The hints that an insertion leaves on its path and beside it. -/
structure Hinted (f : Frame mprof_node) : Prop where
  path : f.elem.ins_path_hint = IN_PATH
  beside : ∀ b, top f.sibling = some b → b.ins_path_hint = NOT_IN_PATH

/-- The root of a path to the inserted node is on the path. -/
theorem top_plug_hint {fs : List (Frame mprof_node)} (hinted : ∀ f ∈ fs, Hinted f) {t : mprof_tree}
    {new b : mprof_node} (tops : top t = some new) (inserted : new.ins_path_hint = IS_INS_NODE)
    (root : top (plug fs t) = some b) : b.ins_path_hint ≠ NOT_IN_PATH := by
  induction fs using List.reverseRecOn with
  | nil =>
    rw [plug_nil, tops, Option.some.injEq] at root
    rw [← root, inserted]
    decide
  | append_singleton fs f _ =>
    rw [plug_append, plug_cons, plug_nil, Frame.fill, top_branch, Option.some.injEq] at root
    rw [← root, (hinted f (by simp)).path]
    decide

/-- The hints lead down the path. -/
theorem rebalance_path_plug {fs : List (Frame mprof_node)} (hinted : ∀ f ∈ fs, Hinted f) {new : mprof_node}
    (inserted : new.ins_path_hint = IS_INS_NODE) :
    mprof_tree_rebalance_path (plug fs (.node new .nil .nil)) = plug (fs.map lean) (.node new .nil .nil) := by
  induction fs using List.reverseRecOn with
  | nil =>
    rw [List.map_nil, plug_nil, mprof_tree_rebalance_path, if_pos inserted]
  | append_singleton fs f ih =>
    have inner := ih fun g member => hinted g (List.mem_append_left [f] member)
    have last := hinted f (by simp)
    have passing : f.elem.ins_path_hint ≠ IS_INS_NODE := by
      rw [last.path]
      decide
    rw [plug_append, List.map_append, plug_append, plug_cons, plug_nil, List.map_singleton, plug_cons, plug_nil]
    obtain ⟨elem, side, sibling⟩ := f
    cases side with
    | left =>
      -- the child on the path is not marked as outside it
      have hint : hintedSide (plug fs (.node new .nil .nil)) = .left := by
        cases shape : plug fs (BinaryTree.node new .nil .nil) with
        | nil =>
          have deep := length_le_height fs (BinaryTree.node new .nil .nil)
          rw [shape] at deep
          exact absurd deep (by simp [BinaryTree.height])
        | node b l r =>
          have tops : top (plug fs (BinaryTree.node new .nil .nil)) = some b := by
            rw [shape]
            rfl
          have mark := top_plug_hint (fun g member => hinted g (List.mem_append_left _ member)) rfl inserted tops
          rw [hintedSide, if_neg mark]
      change mprof_tree_rebalance_path (.node elem (plug fs (.node new .nil .nil)) sibling) = _
      rw [mprof_tree_rebalance_path, if_neg passing]
      simp only [hint, inner]
      rfl
    | right =>
      have hint : hintedSide sibling = .right := by
        cases sibling with
        | nil => rfl
        | node b l r => rw [hintedSide, if_pos (last.beside b rfl)]
      change mprof_tree_rebalance_path (.node elem sibling (plug fs (.node new .nil .nil))) = _
      rw [mprof_tree_rebalance_path, if_neg passing]
      simp only [hint, inner]
      rfl

/-! ## Rebalancing -/

/-- A frame of the insertion path: its hints, and the side that the comparison told. -/
structure Marked (arg : trace_entry) (f : Frame mprof_node) : Prop extends Hinted f where
  side : f.side = direction (mprof_tree_compare f.elem arg)
  differs : mprof_tree_compare f.elem arg ≠ 0

/-- The node that was put at the end of the path. -/
structure Inserted (arg : trace_entry) (new : mprof_node) : Prop where
  hint : new.ins_path_hint = IS_INS_NODE
  even : new.desc_dir = .even
  equal : mprof_tree_compare new arg = 0

/-- What rebalancing gives for a subtree that was balanced before the insertion. -/
def Rebalanced (before filled : mprof_tree) (result : Option mprof_tree) : Prop :=
  ∃ r, result = some r ∧ Balanced mprof_node.desc_dir r ∧ r.height = before.height ∧ nodes r = nodes filled

/-- The path below, once the new node is in it. -/
theorem grown_path {fs : List (Frame mprof_node)} {arg : trace_entry} {new : mprof_node}
    (inserted : Inserted arg new) (marked : ∀ f ∈ fs, Marked arg f) (even : ∀ f ∈ fs, f.elem.desc_dir = .even)
    (balanced : Balanced mprof_node.desc_dir (plug fs .nil)) :
    Balanced mprof_node.desc_dir (mprof_tree_rebalance_path (plug fs (.node new .nil .nil))) ∧
      (mprof_tree_rebalance_path (plug fs (.node new .nil .nil))).height = (plug fs .nil).height + 1 ∧
      nodes (mprof_tree_rebalance_path (plug fs (.node new .nil .nil))) = nodes (plug fs (.node new .nil .nil)) := by
  have path := rebalance_path_plug (fun f member => (marked f member).toHinted) inserted.hint
  have leaf : Balanced mprof_node.desc_dir (.node new .nil .nil) := by
    refine ⟨?_, trivial, trivial⟩
    rw [inserted.even]
    rfl
  rw [path]
  obtain ⟨balanced', height⟩ := balanced_lean (t := .node new .nil .nil) even (balanced_plug.mp balanced).1 rfl rfl leaf
  exact ⟨balanced', height, nodes_plug_lean fs _⟩

/-- There was room on the side of the insertion. -/
theorem rebalance_room {arg : trace_entry} {fs : List (Frame mprof_node)} {f : Frame mprof_node} {new : mprof_node}
    (inserted : Inserted arg new) (marked : ∀ g ∈ fs, Marked arg g) (atTop : Marked arg f)
    (even : ∀ g ∈ fs, g.elem.desc_dir = .even) (other : f.elem.desc_dir = .toward f.side.other)
    (balanced : Balanced mprof_node.desc_dir (f.fill (plug fs .nil))) :
    Rebalanced (f.fill (plug fs .nil)) (f.fill (plug fs (.node new .nil .nil)))
      (mprof_tree_rebalance (f.fill (plug fs (.node new .nil .nil))) arg) := by
  obtain ⟨elem, s, sibling⟩ := f
  dsimp only [Frame.fill] at balanced other ⊢
  rw [balanced_branch, Tilt.fits_branch, other] at balanced
  obtain ⟨fits, below, beside⟩ := balanced
  have lower : sibling.height = (plug fs .nil).height + 1 := by
    rcases fits with ⟨impossible, _⟩ | ⟨same, _⟩ | ⟨_, lower⟩
    · cases impossible
    · exact absurd (Tilt.toward.inj same) s.other_ne
    · exact lower
  obtain ⟨grown, height, kept⟩ := grown_path inserted marked even below
  have side : direction (mprof_tree_compare elem arg) = s := atTop.side.symm
  have uneven : elem.desc_dir ≠ .even := by
    rw [other]
    exact nofun
  have apart : elem.desc_dir ≠ .toward s := by
    rw [other]
    exact fun same => s.other_ne (Tilt.toward.inj same)
  refine ⟨branch s { elem with desc_dir := .even } (mprof_tree_rebalance_path (plug fs (.node new .nil .nil)))
    sibling, ?_, ?_, ?_, ?_⟩
  · unfold mprof_tree_rebalance
    simp only [top_branch, links_branch, side, Option.bind_eq_bind, Option.bind_some, if_neg uneven, Option.pure_def,
      ne_eq, not_false_eq_true, if_true, apart]
  · rw [balanced_branch, Tilt.fits_branch]
    exact ⟨.inl ⟨rfl, by omega⟩, grown, beside⟩
  · rw [height_branch, height_branch]
    omega
  · rw [nodes_branch, nodes_branch, kept]
    rfl

/-- The two frames below `path_top` when its taller side grows. -/
theorem heavy_heights {s : Side} {elem : mprof_node} {below sibling : mprof_tree}
    (toward : elem.desc_dir = .toward s)
    (balanced : Balanced mprof_node.desc_dir (branch s elem below sibling)) :
    below.height = sibling.height + 1 ∧ Balanced mprof_node.desc_dir below ∧
      Balanced mprof_node.desc_dir sibling := by
  rw [balanced_branch, Tilt.fits_branch, toward] at balanced
  obtain ⟨fits, inside, beside⟩ := balanced
  refine ⟨?_, inside, beside⟩
  rcases fits with ⟨impossible, _⟩ | ⟨_, taller⟩ | ⟨same, _⟩
  · cases impossible
  · exact taller
  · exact absurd (Tilt.toward.inj same).symm s.other_ne

theorem even_heights {s : Side} {elem : mprof_node} {below sibling : mprof_tree} (even : elem.desc_dir = .even)
    (balanced : Balanced mprof_node.desc_dir (branch s elem below sibling)) :
    below.height = sibling.height ∧ Balanced mprof_node.desc_dir below ∧
      Balanced mprof_node.desc_dir sibling := by
  rw [balanced_branch, Tilt.fits_branch, even] at balanced
  obtain ⟨fits, inside, beside⟩ := balanced
  refine ⟨?_, inside, beside⟩
  rcases fits with ⟨_, same⟩ | ⟨impossible, _⟩ | ⟨impossible, _⟩
  · exact same
  · cases impossible
  · cases impossible

/-- Both directions agree: a single rotation. -/
theorem rebalance_single {arg : trace_entry} {fs : List (Frame mprof_node)} {elem below : mprof_node} {s : Side}
    {A C : mprof_tree} {new : mprof_node} (inserted : Inserted arg new) (marked : ∀ g ∈ fs, Marked arg g)
    (first : direction (mprof_tree_compare elem arg) = s) (second : direction (mprof_tree_compare below arg) = s)
    (even : ∀ g ∈ fs, g.elem.desc_dir = .even) (toward : elem.desc_dir = .toward s)
    (evenBelow : below.desc_dir = .even)
    (balanced : Balanced mprof_node.desc_dir (branch s elem (branch s below (plug fs .nil) C) A)) :
    Rebalanced (branch s elem (branch s below (plug fs .nil) C) A)
      (branch s elem (branch s below (plug fs (.node new .nil .nil)) C) A)
      (mprof_tree_rebalance (branch s elem (branch s below (plug fs (.node new .nil .nil)) C) A) arg) := by
  obtain ⟨taller, inside, balancedA⟩ := heavy_heights toward balanced
  obtain ⟨level, inner, balancedC⟩ := even_heights evenBelow inside
  obtain ⟨grown, height, kept⟩ := grown_path inserted marked even inner
  rw [height_branch] at taller
  refine ⟨branch s { below with desc_dir := .even } (mprof_tree_rebalance_path (plug fs (.node new .nil .nil)))
    (branch s { elem with desc_dir := .even } C A), ?_, ?_, ?_, ?_⟩
  · unfold mprof_tree_rebalance rotate_2
    simp only [top_branch, links_branch, first, second, Option.bind_eq_bind, Option.bind_some, Option.pure_def,
      ne_eq, toward, not_true_eq_false, if_false, if_true]
    rfl
  · simp only [balanced_branch, Tilt.fits_branch, height_branch]
    exact ⟨.inl ⟨trivial, by omega⟩, grown, .inl ⟨trivial, by omega⟩, balancedC, balancedA⟩
  · simp only [height_branch]
    omega
  · simp only [nodes_branch, kept]
    cases s <;> simp [Side.pick, mprof_node.ident]

/-- The inserted node itself is between the two: a double rotation leaves everything even. -/
theorem rebalance_double_new {arg : trace_entry} {elem below : mprof_node} {s : Side} {A G : mprof_tree}
    {new : mprof_node} (inserted : Inserted arg new)
    (first : direction (mprof_tree_compare elem arg) = s)
    (second : direction (mprof_tree_compare below arg) = s.other) (toward : elem.desc_dir = .toward s)
    (evenBelow : below.desc_dir = .even)
    (balanced : Balanced mprof_node.desc_dir (branch s elem (branch s.other below .nil G) A)) :
    Rebalanced (branch s elem (branch s.other below .nil G) A)
      (branch s elem (branch s.other below (.node new .nil .nil) G) A)
      (mprof_tree_rebalance (branch s elem (branch s.other below (.node new .nil .nil) G) A) arg) := by
  obtain ⟨taller, inside, balancedA⟩ := heavy_heights toward balanced
  obtain ⟨level, _, balancedG⟩ := even_heights evenBelow inside
  rw [height_branch] at taller
  have differ : s ≠ s.other := fun same => s.other_ne same.symm
  have none : (BinaryTree.nil : mprof_tree).height = 0 := rfl
  have leaf : BinaryTree.node new .nil .nil = branch s new .nil .nil := by
    cases s <;> rfl
  refine ⟨branch s { new with desc_dir := .even } (branch s { below with desc_dir := .even } G .nil)
    (branch s { elem with desc_dir := .even } .nil A), ?_, ?_, ?_, ?_⟩
  · unfold mprof_tree_rebalance rotate_3
    rw [leaf]
    have turned : links s (branch s.other below (branch s new .nil .nil) G) =
        some (below, G, branch s new .nil .nil) := by
      rw [branch_other, links_branch]
    simp only [top_branch, links_branch, turned, first, second, Option.bind_eq_bind, Option.bind_some,
      Option.pure_def, ne_eq, toward, not_true_eq_false, if_false, if_true, differ, inserted.equal]
    rfl
  · simp only [balanced_branch, Tilt.fits_branch, height_branch]
    exact ⟨.inl ⟨trivial, by omega⟩, ⟨.inl ⟨trivial, by omega⟩, balancedG, trivial⟩, .inl ⟨trivial, by omega⟩,
      trivial, balancedA⟩
  · simp only [height_branch]
    omega
  · rw [leaf]
    simp only [nodes_branch]
    cases s <;> simp [Side.pick, Side.other, mprof_node.ident]

/-- The insertion is below the node between the two: its tilt goes to one of them. -/
theorem rebalance_double {arg : trace_entry} {fs : List (Frame mprof_node)} {elem below middle : mprof_node}
    {s third : Side} {A G K : mprof_tree} {new : mprof_node} (inserted : Inserted arg new)
    (marked : ∀ g ∈ fs, Marked arg g) (first : direction (mprof_tree_compare elem arg) = s)
    (second : direction (mprof_tree_compare below arg) = s.other)
    (differs : mprof_tree_compare middle arg ≠ 0)
    (side : direction (mprof_tree_compare middle arg) = third) (even : ∀ g ∈ fs, g.elem.desc_dir = .even)
    (toward : elem.desc_dir = .toward s) (evenBelow : below.desc_dir = .even) (evenMiddle : middle.desc_dir = .even)
    (balanced : Balanced mprof_node.desc_dir
      (branch s elem (branch s.other below (branch third middle (plug fs .nil) K) G) A)) :
    Rebalanced (branch s elem (branch s.other below (branch third middle (plug fs .nil) K) G) A)
      (branch s elem (branch s.other below (branch third middle (plug fs (.node new .nil .nil)) K) G) A)
      (mprof_tree_rebalance
        (branch s elem (branch s.other below (branch third middle (plug fs (.node new .nil .nil)) K) G) A) arg) := by
  obtain ⟨taller, inside, balancedA⟩ := heavy_heights toward balanced
  obtain ⟨level, between, balancedG⟩ := even_heights evenBelow inside
  obtain ⟨level', inner, balancedK⟩ := even_heights evenMiddle between
  obtain ⟨grown, height, kept⟩ := grown_path inserted marked even inner
  rw [height_branch] at taller level
  have differ : s ≠ s.other := fun same => s.other_ne same.symm
  have turned : links s (branch s.other below (branch third middle (plug fs (.node new .nil .nil)) K) G) =
      some (below, G, branch third middle (plug fs (.node new .nil .nil)) K) := by
    rw [branch_other, links_branch]
  rw [height_branch] at taller
  by_cases outer : third = s
  · subst outer
    refine ⟨branch third { middle with desc_dir := .even }
      (branch third.other { below with desc_dir := .even }
        (mprof_tree_rebalance_path (plug fs (.node new .nil .nil))) G)
      (branch third { elem with desc_dir := .toward third.other } K A), ?_, ?_, ?_, ?_⟩
    · unfold mprof_tree_rebalance rotate_3
      simp only [top_branch, links_branch, turned, first, second, side, Option.bind_eq_bind, Option.bind_some,
        Option.pure_def, ne_eq, toward, not_true_eq_false, if_false, if_true, differ, if_neg differs]
      rfl
    · simp only [balanced_branch, Tilt.fits_branch, height_branch]
      exact ⟨.inl ⟨trivial, by omega⟩, ⟨.inl ⟨trivial, by omega⟩, grown, balancedG⟩,
        .inr (.inr ⟨trivial, by omega⟩), balancedK, balancedA⟩
    · simp only [height_branch]
      omega
    · simp only [nodes_branch, kept]
      cases third <;> simp [Side.pick, Side.other, mprof_node.ident]
  · obtain rfl := Side.eq_other_of_ne outer
    have turnedMiddle : links s (branch s.other middle (plug fs (.node new .nil .nil)) K) =
        some (middle, K, plug fs (.node new .nil .nil)) := by
      rw [branch_other, links_branch]
    refine ⟨branch s.other { middle with desc_dir := .even }
      (branch s { elem with desc_dir := .even } (mprof_tree_rebalance_path (plug fs (.node new .nil .nil))) A)
      (branch s { below with desc_dir := .toward s } G K), ?_, ?_, ?_, ?_⟩
    · unfold mprof_tree_rebalance rotate_3
      simp only [top_branch, links_branch, turned, turnedMiddle, first, second, side, Option.bind_eq_bind,
        Option.bind_some, Option.pure_def, ne_eq, toward, not_true_eq_false, if_false, differ, if_neg differs,
        s.other_ne]
      rfl
    · simp only [balanced_branch, Tilt.fits_branch, height_branch]
      exact ⟨.inl ⟨trivial, by omega⟩, ⟨.inl ⟨trivial, by omega⟩, grown, balancedA⟩,
        .inr (.inl ⟨trivial, by omega⟩), balancedG, balancedK⟩
    · simp only [height_branch]
      omega
    · simp only [nodes_branch, kept]
      cases s <;> simp [Side.pick, Side.other, mprof_node.ident]

/-- A path whose first node is uneven and all others even. -/
theorem rebalance_frames {arg : trace_entry} {fs : List (Frame mprof_node)} {f : Frame mprof_node}
    {new : mprof_node} (inserted : Inserted arg new) (marked : ∀ g ∈ fs, Marked arg g) (atTop : Marked arg f)
    (even : ∀ g ∈ fs, g.elem.desc_dir = .even) (uneven : f.elem.desc_dir ≠ .even)
    (balanced : Balanced mprof_node.desc_dir (f.fill (plug fs .nil))) :
    Rebalanced (f.fill (plug fs .nil)) (f.fill (plug fs (.node new .nil .nil)))
      (mprof_tree_rebalance (f.fill (plug fs (.node new .nil .nil))) arg) := by
  by_cases toward : f.elem.desc_dir = .toward f.side
  · obtain ⟨taller, _, _⟩ := heavy_heights toward balanced
    -- the taller side is not empty, so there is a node between
    induction fs using List.reverseRecOn with
    | nil => exact absurd taller (by simp [BinaryTree.height])
    | append_singleton fs g _ =>
      have markedBelow := marked g (by simp)
      have evenBelow := even g (by simp)
      have marked' : ∀ h ∈ fs, Marked arg h := fun h member => marked h (List.mem_append_left [g] member)
      have even' : ∀ h ∈ fs, h.elem.desc_dir = .even := fun h member => even h (List.mem_append_left [g] member)
      rw [plug_append, plug_append, plug_cons, plug_nil, plug_cons, plug_nil] at *
      obtain ⟨elem, s, A⟩ := f
      obtain ⟨below, t, C⟩ := g
      have first : direction (mprof_tree_compare elem arg) = s := atTop.side.symm
      have second : direction (mprof_tree_compare below arg) = t := markedBelow.side.symm
      dsimp only [Frame.fill] at balanced toward evenBelow ⊢
      by_cases same : t = s
      · subst same
        exact rebalance_single inserted marked' first second even' toward evenBelow balanced
      · obtain rfl := Side.eq_other_of_ne same
        induction fs using List.reverseRecOn with
        | nil => exact rebalance_double_new inserted first second toward evenBelow balanced
        | append_singleton fs k _ =>
          have markedMiddle := marked' k (by simp)
          have evenMiddle := even' k (by simp)
          rw [plug_append, plug_append, plug_cons, plug_nil, plug_cons, plug_nil] at *
          obtain ⟨middle, third, K⟩ := k
          dsimp only [Frame.fill] at balanced evenMiddle ⊢
          exact rebalance_double inserted (fun h member => marked' h (List.mem_append_left _ member)) first second
            markedMiddle.differs markedMiddle.side.symm (fun h member => even' h (List.mem_append_left _ member))
            toward evenBelow evenMiddle balanced
  · have other : f.elem.desc_dir = .toward f.side.other := by
      cases tilt : f.elem.desc_dir with
      | even => exact absurd tilt uneven
      | toward side =>
        have apart : side ≠ f.side := fun same => toward (by rw [tilt, same])
        rw [Side.eq_other_of_ne apart]
    exact rebalance_room inserted marked atTop even other balanced

/-- Every node on the path is even. -/
theorem rebalance_even {arg : trace_entry} {fs : List (Frame mprof_node)} {new : mprof_node}
    (inserted : Inserted arg new) (marked : ∀ f ∈ fs, Marked arg f) (even : ∀ f ∈ fs, f.elem.desc_dir = .even)
    (balanced : Balanced mprof_node.desc_dir (plug fs .nil)) :
    ∃ r, mprof_tree_rebalance (plug fs (.node new .nil .nil)) arg = some r ∧ Balanced mprof_node.desc_dir r ∧
      nodes r = nodes (plug fs (.node new .nil .nil)) := by
  obtain ⟨grown, _, kept⟩ := grown_path inserted marked even balanced
  refine ⟨_, ?_, grown, kept⟩
  have root : ∃ b, top (plug fs (.node new .nil .nil)) = some b ∧ b.desc_dir = .even := by
    induction fs using List.reverseRecOn with
    | nil => exact ⟨new, rfl, inserted.even⟩
    | append_singleton fs f _ =>
      refine ⟨f.elem, ?_, even f (by simp)⟩
      rw [plug_append, plug_cons, plug_nil, Frame.fill, top_branch]
  obtain ⟨b, tops, level⟩ := root
  unfold mprof_tree_rebalance
  rw [tops, Option.bind_eq_bind, Option.bind_some, if_pos level]
  rfl

/-! ## The way down -/

/-- A node without its hint. -/
def mprof_node.forget (n : mprof_node) : mprof_node := { n with ins_path_hint := NOT_IN_PATH }

/-- Links, tilts and contents are the same. -/
def SameLinks (t u : mprof_tree) : Prop := t.map mprof_node.forget = u.map mprof_node.forget

theorem SameLinks.balanced {t u : mprof_tree} (same : SameLinks t u) (balanced : Balanced mprof_node.desc_dir t) :
    Balanced mprof_node.desc_dir u := by
  have mapped : Balanced mprof_node.desc_dir (t.map mprof_node.forget) := (balanced_map _).mpr balanced
  rw [same] at mapped
  exact (balanced_map mprof_node.forget).mp mapped

theorem SameLinks.nodes {t u : mprof_tree} (same : SameLinks t u) : nodes t = nodes u := by
  have lists := congrArg (fun t => (inorder t).map mprof_node.ident) same
  simp only [inorder_map, List.map_map] at lists
  exact lists

theorem sameLinks_markSibling (t : mprof_tree) : SameLinks (markSibling t) t := by
  cases t <;> rfl

/-- Which of the frames `path_top` points to: the innermost uneven one, if there is one. -/
def TopOf (fs : List (Frame mprof_node)) (above start path_top : Nat) : Prop :=
  (∃ inner f outer, fs = inner ++ f :: outer ∧ (∀ g ∈ inner, g.elem.desc_dir = .even) ∧
      f.elem.desc_dir ≠ .even ∧ path_top = above + outer.length) ∨
    ((∀ g ∈ fs, g.elem.desc_dir = .even) ∧ path_top = start)

/-- What the loop finds. -/
structure Descends (arg : trace_entry) (t : mprof_tree) (up : List (Frame mprof_node)) (start : Nat)
    (found : Descent) (fs : List (Frame mprof_node)) : Prop where
  frames : found.up = fs ++ up
  marked : ∀ f ∈ fs, Marked arg f
  same : SameLinks (plug fs found.tree) t
  topOf : TopOf fs up.length start found.path_top
  stops : ∀ b, top found.tree = some b → mprof_tree_compare b arg = 0

theorem TopOf.snoc {fs : List (Frame mprof_node)} {f : Frame mprof_node} {above start path_top : Nat}
    (topOf : TopOf fs (above + 1) (if f.elem.desc_dir ≠ .even then above else start) path_top) :
    TopOf (fs ++ [f]) above start path_top := by
  rcases topOf with ⟨inner, g, outer, rfl, even, uneven, same⟩ | ⟨even, same⟩
  · refine .inl ⟨inner, g, outer ++ [f], by simp, even, uneven, ?_⟩
    rw [same, List.length_append, List.length_singleton]
    omega
  · by_cases uneven : f.elem.desc_dir ≠ .even
    · rw [if_pos uneven] at same
      exact .inl ⟨fs, f, [], rfl, even, uneven, by rw [same, List.length_nil, Nat.add_zero]⟩
    · rw [if_neg uneven] at same
      refine .inr ⟨?_, same⟩
      intro g member
      rcases List.mem_append.mp member with inside | last
      · exact even g inside
      · rw [List.mem_singleton.mp last]
        exact not_not.mp uneven

/-- The descent, to the line or where it belongs. -/
theorem descend_spec (arg : trace_entry) (t : mprof_tree) (up : List (Frame mprof_node)) (start : Nat) :
    ∃ fs, Descends arg t up start (descend arg t up start) fs := by
  induction t generalizing up start with
  | nil => exact ⟨[], rfl, by simp, rfl, .inr ⟨by simp, rfl⟩, fun b root => nomatch root⟩
  | node a l r leftHypothesis rightHypothesis =>
    have entry : mprof_tree_compare { a with ins_path_hint := IN_PATH } arg = mprof_tree_compare a arg := rfl
    rw [descend]
    dsimp only
    rw [entry]
    by_cases found : mprof_tree_compare a arg = 0
    · rw [if_pos found]
      refine ⟨[], rfl, by simp, rfl, .inr ⟨by simp, rfl⟩, ?_⟩
      intro b root
      rw [← Option.some.inj root]
      exact found
    · rw [if_neg found]
      have mark (s : Side) (sibling : mprof_tree) (side : direction (mprof_tree_compare a arg) = s) :
          Marked arg ⟨{ a with ins_path_hint := IN_PATH }, s, markSibling sibling⟩ := by
        refine ⟨⟨rfl, ?_⟩, side.symm, found⟩
        intro b root
        cases sibling with
        | nil => cases root
        | node c l r => rw [← Option.some.inj root]
      -- one more frame at the outer end of what is found below
      have step (s : Side) (near far : mprof_tree) (side : direction (mprof_tree_compare a arg) = s)
          (whole : BinaryTree.node a l r = branch s a near far) (inner : Descent) (fs : List (Frame mprof_node))
          (below : Descends arg near (⟨{ a with ins_path_hint := IN_PATH }, s, markSibling far⟩ :: up)
            (if a.desc_dir ≠ .even then up.length else start) inner fs) :
          Descends arg (.node a l r) up start inner
            (fs ++ [⟨{ a with ins_path_hint := IN_PATH }, s, markSibling far⟩]) := by
        constructor
        · rw [below.frames, List.append_assoc]
          rfl
        · intro f member
          rcases List.mem_append.mp member with inside | last
          · exact below.marked f inside
          · rw [List.mem_singleton.mp last]
            exact mark s far side
        · rw [plug_append, plug_cons, plug_nil, whole, SameLinks, Frame.fill, map_branch, map_branch, below.same,
            sameLinks_markSibling]
          rfl
        · exact below.topOf.snoc
        · exact below.stops
      cases side : direction (mprof_tree_compare a arg) with
      | left =>
        obtain ⟨fs, below⟩ := leftHypothesis (⟨{ a with ins_path_hint := IN_PATH }, .left, markSibling r⟩ :: up)
          (if a.desc_dir ≠ .even then up.length else start)
        exact ⟨_, step .left l r side rfl _ fs below⟩
      | right =>
        obtain ⟨fs, below⟩ := rightHypothesis (⟨{ a with ins_path_hint := IN_PATH }, .right, markSibling l⟩ :: up)
          (if a.desc_dir ≠ .even then up.length else start)
        exact ⟨_, step .right r l side rfl _ fs below⟩

end Ydb.ProfilerTree
