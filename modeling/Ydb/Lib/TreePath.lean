import Mathlib.Data.Tree.Basic
import Mathlib.Data.List.Nodup
import Mathlib.Order.Basic

/-!
# Paths in binary trees

A position in a binary tree is a subtree together with the frames above it, the
innermost first. Filling the frames gives the tree back. The elements in order
split at the position, which makes rotations and replacements at the position
easy to compare with the whole.

Height balance is stored at the elements, as a tilt towards one side or none.
-/

namespace Ydb.Lib

/-- Left or right. -/
inductive Side where
  | left
  | right
deriving DecidableEq, Repr

/-- The side across. -/
def Side.other : Side → Side
  | left => right
  | right => left

@[simp] theorem Side.other_other (s : Side) : s.other.other = s := by cases s <;> rfl

theorem Side.other_ne (s : Side) : s.other ≠ s := by cases s <;> decide

theorem Side.eq_other_of_ne {s r : Side} (differ : r ≠ s) : r = s.other := by
  cases s <;> cases r <;> simp_all [other]

/-- The heavier side of an element, if one is. -/
inductive Tilt where
  | even
  | toward (side : Side)
deriving DecidableEq, Repr

/-- A side of a pair of values. -/
def Side.pick {β : Type*} (s : Side) (left right : β) : β :=
  match s with
  | .left => left
  | .right => right

open BinaryTree

variable {α : Type*}

/-- The tree with `near` on the given side and `far` on the other. -/
def branch (s : Side) (a : α) (near far : BinaryTree α) : BinaryTree α :=
  match s with
  | .left => .node a near far
  | .right => .node a far near

theorem branch_other (s : Side) (a : α) (near far : BinaryTree α) :
    branch s.other a near far = branch s a far near := by
  cases s <;> rfl

theorem branch_injective {s : Side} {a b : α} {near far near' far' : BinaryTree α}
    (same : branch s a near far = branch s b near' far') : near = near' ∧ far = far' := by
  cases s <;> simp_all [branch]

theorem exists_branch (s : Side) (a : α) (l r : BinaryTree α) :
    ∃ near far, BinaryTree.node a l r = branch s a near far := by
  cases s
  · exact ⟨l, r, rfl⟩
  · exact ⟨r, l, rfl⟩

theorem height_branch (s : Side) (a : α) (near far : BinaryTree α) :
    (branch s a near far).height = max near.height far.height + 1 := by
  cases s
  · rfl
  · exact congrArg (· + 1) (Nat.max_comm _ _)

/-- The elements from left to right. -/
def inorder : BinaryTree α → List α
  | .nil => []
  | .node a l r => inorder l ++ a :: inorder r

/-- The element at the root. -/
def top : BinaryTree α → Option α
  | .nil => none
  | .node a _ _ => some a

@[simp] theorem top_branch (s : Side) (a : α) (near far : BinaryTree α) :
    top (branch s a near far) = some a := by
  cases s <;> rfl

theorem top_eq_none {t : BinaryTree α} : top t = none ↔ t = .nil := by
  cases t <;> simp [top]

theorem top_mem {t : BinaryTree α} {a : α} (isTop : top t = some a) : a ∈ inorder t := by
  cases t with
  | nil => cases isTop
  | node b l r =>
    obtain rfl := Option.some.inj isTop
    simp [inorder]

theorem mem_inorder_branch {s : Side} {a b : α} {near far : BinaryTree α} :
    b ∈ inorder (branch s a near far) ↔ b = a ∨ b ∈ inorder near ∨ b ∈ inorder far := by
  cases s <;> simp only [branch, inorder, List.mem_append, List.mem_cons] <;> tauto

/-! ## Positions -/

/-- An element above a position, the side on which the position lies and the
subtree on the other side. -/
structure Frame (α : Type*) where
  elem : α
  side : Side
  sibling : BinaryTree α

/-- The tree that a frame makes of a subtree. -/
def Frame.fill (f : Frame α) (t : BinaryTree α) : BinaryTree α := branch f.side f.elem t f.sibling

/-- The whole tree around a subtree. -/
def plug : List (Frame α) → BinaryTree α → BinaryTree α
  | [], t => t
  | f :: up, t => plug up (f.fill t)

@[simp] theorem plug_nil (t : BinaryTree α) : plug [] t = t := rfl

@[simp] theorem plug_cons (f : Frame α) (up : List (Frame α)) (t : BinaryTree α) :
    plug (f :: up) t = plug up (f.fill t) := rfl

theorem plug_append (inner outer : List (Frame α)) (t : BinaryTree α) :
    plug (inner ++ outer) t = plug outer (plug inner t) := by
  induction inner generalizing t with
  | nil => rfl
  | cons f inner ih => exact ih (f.fill t)

/-- The elements in front of the position. -/
def before : List (Frame α) → List α
  | [] => []
  | f :: up => before up ++ f.side.pick [] (inorder f.sibling ++ [f.elem])

/-- The elements behind the position. -/
def after : List (Frame α) → List α
  | [] => []
  | f :: up => f.side.pick (f.elem :: inorder f.sibling) [] ++ after up

theorem inorder_plug (fs : List (Frame α)) (t : BinaryTree α) :
    inorder (plug fs t) = before fs ++ (inorder t ++ after fs) := by
  induction fs generalizing t with
  | nil => simp [before, after]
  | cons f up ih =>
    rw [plug_cons, ih, before, after, Frame.fill]
    cases f.side <;> simp [branch, inorder, Side.pick]

/-- The elements outside the position. -/
def Around (fs : List (Frame α)) (a : α) : Prop := a ∈ before fs ∨ a ∈ after fs

theorem around_cons {f : Frame α} {up : List (Frame α)} {a : α} :
    Around (f :: up) a ↔ a = f.elem ∨ a ∈ inorder f.sibling ∨ Around up a := by
  rw [Around, Around, before, after]
  cases f.side <;> simp only [Side.pick, List.mem_append, List.mem_cons, List.not_mem_nil] <;> tauto

theorem frame_around {fs : List (Frame α)} {f : Frame α} (member : f ∈ fs) : Around fs f.elem := by
  induction fs with
  | nil => cases member
  | cons g up ih =>
    rw [around_cons]
    rcases List.mem_cons.mp member with rfl | inside
    · exact .inl rfl
    · exact .inr (.inr (ih inside))

theorem mem_inorder_plug {fs : List (Frame α)} {t : BinaryTree α} {a : α} :
    a ∈ inorder (plug fs t) ↔ a ∈ inorder t ∨ Around fs a := by
  rw [inorder_plug, List.mem_append, List.mem_append, Around]
  tauto

/-- Every element has a position. -/
theorem exists_position {t : BinaryTree α} {a : α} (member : a ∈ inorder t) :
    ∃ fs l r, t = plug fs (.node a l r) := by
  induction t with
  | nil => cases member
  | node b l r leftHypothesis rightHypothesis =>
    rw [inorder, List.mem_append, List.mem_cons] at member
    rcases member with inLeft | rfl | inRight
    · obtain ⟨fs, l', r', rfl⟩ := leftHypothesis inLeft
      exact ⟨fs ++ [⟨b, .left, r⟩], l', r', by rw [plug_append]; rfl⟩
    · exact ⟨[], l, r, rfl⟩
    · obtain ⟨fs, l', r', rfl⟩ := rightHypothesis inRight
      exact ⟨fs ++ [⟨b, .right, l⟩], l', r', by rw [plug_append]; rfl⟩

theorem nodup_branch {s : Side} {a : α} {near far : BinaryTree α} :
    (inorder (branch s a near far)).Nodup ↔
      a ∉ inorder near ∧ a ∉ inorder far ∧ (inorder near).Nodup ∧ (inorder far).Nodup ∧
        ∀ b ∈ inorder near, b ∉ inorder far := by
  have apart (l r : List α) : (l ++ a :: r).Nodup ↔
      a ∉ l ∧ a ∉ r ∧ l.Nodup ∧ r.Nodup ∧ ∀ b ∈ l, b ∉ r := by
    simp only [List.nodup_append, List.nodup_cons, List.mem_cons]
    constructor
    · rintro ⟨left, ⟨new, right⟩, differ⟩
      exact ⟨fun inside => differ a inside a (.inl rfl) rfl, new, left, right,
        fun b inLeft inRight => differ b inLeft b (.inr inRight) rfl⟩
    · rintro ⟨notLeft, new, left, right, differ⟩
      refine ⟨left, ⟨new, right⟩, ?_⟩
      rintro b inLeft c (rfl | inRight) rfl
      · exact notLeft inLeft
      · exact differ b inLeft inRight
  cases s
  · exact apart _ _
  · rw [branch, inorder, apart]
    constructor
    · rintro ⟨notFar, notNear, far, near, differ⟩
      exact ⟨notNear, notFar, near, far, fun b inNear inFar => differ b inFar inNear⟩
    · rintro ⟨notNear, notFar, near, far, differ⟩
      exact ⟨notFar, notNear, far, near, fun b inFar inNear => differ b inNear inFar⟩

/-- Distinct elements: those at the position are distinct and none is outside. -/
theorem nodup_plug {fs : List (Frame α)} {t : BinaryTree α} (nodup : (inorder (plug fs t)).Nodup) :
    (inorder t).Nodup ∧ ∀ a ∈ inorder t, ¬ Around fs a := by
  rw [inorder_plug, List.nodup_append, List.nodup_append] at nodup
  obtain ⟨_, ⟨inside, _, notAfter⟩, notBefore⟩ := nodup
  refine ⟨inside, ?_⟩
  rintro a member (inBefore | inAfter)
  · exact notBefore a inBefore a (List.mem_append_left _ member) rfl
  · exact notAfter a member a inAfter rfl

/-! ## Search order -/

/-- `y` lies on the given side of `x`. -/
def Side.Past {κ : Type*} [LT κ] (s : Side) (x y : κ) : Prop :=
  match s with
  | .left => y < x
  | .right => x < y

theorem Side.Past.trans {κ : Type*} [Preorder κ] {s : Side} {x y z : κ} (first : s.Past x y)
    (second : s.Past y z) : s.Past x z := by
  cases s
  · exact lt_trans second first
  · exact lt_trans first second

theorem Side.past_other {κ : Type*} [LT κ] {s : Side} {x y : κ} :
    s.other.Past x y ↔ s.Past y x := by
  cases s <;> exact Iff.rfl

/-- The keys increase from left to right. -/
def SortedBy {κ : Type*} [LT κ] (key : α → κ) (t : BinaryTree α) : Prop :=
  ((inorder t).map key).Pairwise (· < ·)

/-- The elements outside the position on one side. -/
def beyond (s : Side) (fs : List (Frame α)) : List α := s.pick (before fs) (after fs)

theorem mem_beyond_cons {s : Side} {f : Frame α} {up : List (Frame α)} {a : α} :
    a ∈ beyond s (f :: up) ↔
      a ∈ beyond s up ∨ (f.side = s.other ∧ (a = f.elem ∨ a ∈ inorder f.sibling)) := by
  obtain ⟨elem, side, sibling⟩ := f
  cases s <;> cases side <;>
    simp only [beyond, before, after, Side.pick, Side.other, List.mem_append, List.mem_cons,
      List.not_mem_nil, reduceCtorEq] <;> tauto

/-- The nearest of them. -/
def nearest (s : Side) (fs : List (Frame α)) : Option α :=
  s.pick (before fs).getLast? (after fs).head?

theorem nearest_cons (s : Side) (f : Frame α) (up : List (Frame α)) :
    nearest s (f :: up) = if f.side = s then nearest s up else some f.elem := by
  obtain ⟨elem, side, sibling⟩ := f
  cases s <;> cases side <;> simp [nearest, before, after, Side.pick]

theorem beyond_of_nearest_none {s : Side} {fs : List (Frame α)} (alone : nearest s fs = none) :
    beyond s fs = [] := by
  cases s
  · exact List.getLast?_eq_none_iff.mp alone
  · exact List.head?_eq_none_iff.mp alone

/-- The nearest element on a side is above the position. -/
theorem nearest_frame {s : Side} {fs : List (Frame α)} {m : α} (isNearest : nearest s fs = some m) :
    ∃ inner f outer, fs = inner ++ f :: outer ∧ f.elem = m := by
  induction fs with
  | nil => cases s <;> cases isNearest
  | cons f up ih =>
    rw [nearest_cons] at isNearest
    split at isNearest
    · obtain ⟨inner, g, outer, rfl, same⟩ := ih isNearest
      exact ⟨f :: inner, g, outer, rfl, same⟩
    · exact ⟨[], f, up, rfl, Option.some.inj isNearest⟩

section Sorted

variable {κ : Type*} [Preorder κ] {key : α → κ} {fs : List (Frame α)}

theorem SortedBy.nodup {t : BinaryTree α} (sorted : SortedBy key t) : (inorder t).Nodup := by
  have distinct : ((inorder t).map key).Nodup := by
    unfold List.Nodup
    exact sorted.imp fun smaller => ne_of_lt smaller
  exact List.Nodup.of_map key distinct

/-- The keys around an element lie on the sides where it has them. -/
theorem SortedBy.position {s : Side} {a : α} {near far : BinaryTree α}
    (sorted : SortedBy key (plug fs (branch s a near far))) :
    (∀ b ∈ inorder near, s.Past (key a) (key b)) ∧
      (∀ b ∈ inorder far, s.other.Past (key a) (key b)) ∧
      ∀ s', ∀ b ∈ beyond s' fs, s'.Past (key a) (key b) := by
  have split (l r : List α) (whole : inorder (branch s a near far) = l ++ a :: r) :
      (∀ b ∈ l, key b < key a) ∧ (∀ b ∈ r, key a < key b) ∧ (∀ b ∈ before fs, key b < key a) ∧
        ∀ b ∈ after fs, key a < key b := by
    rw [SortedBy, inorder_plug, whole, List.pairwise_map] at sorted
    simp only [List.pairwise_append, List.pairwise_cons, List.mem_append, List.mem_cons] at sorted
    obtain ⟨_, ⟨⟨_, ⟨aR, _⟩, lR⟩, _, insideAfter⟩, beforeAll⟩ := sorted
    refine ⟨?_, aR, ?_, ?_⟩
    · exact fun b inL => lR b inL a (.inl rfl)
    · exact fun b inBefore => beforeAll b inBefore a (.inl (.inr (.inl rfl)))
    · exact fun b inAfter => insideAfter a (.inr (.inl rfl)) b inAfter
  cases s
  · obtain ⟨left, right, inFront, behind⟩ := split (inorder near) (inorder far) rfl
    refine ⟨left, right, ?_⟩
    rintro (_ | _)
    · exact inFront
    · exact behind
  · obtain ⟨left, right, inFront, behind⟩ := split (inorder far) (inorder near) rfl
    refine ⟨right, left, ?_⟩
    rintro (_ | _)
    · exact inFront
    · exact behind

/-- What is outside a position lies beyond everything inside. -/
theorem SortedBy.inside {t : BinaryTree α} {s : Side} {a b : α} (sorted : SortedBy key (plug fs t))
    (inside : a ∈ inorder t) (outside : b ∈ beyond s fs) : s.Past (key a) (key b) := by
  rw [SortedBy, inorder_plug, List.pairwise_map, List.pairwise_append,
    List.pairwise_append] at sorted
  obtain ⟨_, ⟨_, _, behind⟩, inFront⟩ := sorted
  cases s
  · exact inFront b outside a (List.mem_append_left _ inside)
  · exact behind a inside b outside

/-- Beyond the nearest element the keys go on. -/
theorem SortedBy.nearest {t : BinaryTree α} {s : Side} {m : α} (sorted : SortedBy key (plug fs t))
    (isNearest : nearest s fs = some m) : ∀ b ∈ beyond s fs, b = m ∨ s.Past (key m) (key b) := by
  rw [SortedBy, inorder_plug, List.pairwise_map] at sorted
  obtain ⟨inFront, rest, _⟩ := List.pairwise_append.mp sorted
  obtain ⟨_, behind, _⟩ := List.pairwise_append.mp rest
  cases s
  · obtain ⟨others, last⟩ := List.getLast?_eq_some_iff.mp
      (show (before fs).getLast? = some m from isNearest)
    intro b member
    have inBefore : b ∈ before fs := member
    rw [last] at inBefore inFront
    rcases List.mem_append.mp inBefore with earlier | isLast
    · exact .inr ((List.pairwise_append.mp inFront).2.2 b earlier m (by simp))
    · exact .inl (List.mem_singleton.mp isLast)
  · obtain ⟨others, first⟩ := List.head?_eq_some_iff.mp
      (show (after fs).head? = some m from isNearest)
    intro b member
    have inAfter : b ∈ after fs := member
    rw [first] at inAfter behind
    rcases List.mem_cons.mp inAfter with isFirst | later
    · exact .inl isFirst
    · exact .inr ((List.pairwise_cons.mp behind).1 b later)

end Sorted

/-! ## Height balance -/

/-- The tilt that two heights justify. -/
def Tilt.Fits (tilt : Tilt) (left right : Nat) : Prop :=
  match tilt with
  | .even => left = right
  | .toward .left => left = right + 1
  | .toward .right => right = left + 1

theorem Tilt.fits_branch {tilt : Tilt} (s : Side) (near far : Nat) :
    tilt.Fits (s.pick near far) (s.pick far near) ↔
      (tilt = .even ∧ near = far) ∨ (tilt = .toward s ∧ near = far + 1) ∨
        (tilt = .toward s.other ∧ far = near + 1) := by
  cases s <;> cases tilt with
  | even => simp [Fits, Side.pick, eq_comm]
  | toward side => cases side <;> simp [Fits, Side.pick, Side.other]

/-- Every element is tilted as the heights below it are. -/
def Balanced (tilt : α → Tilt) : BinaryTree α → Prop
  | .nil => True
  | .node a l r => (tilt a).Fits l.height r.height ∧ Balanced tilt l ∧ Balanced tilt r

theorem balanced_branch {tilt : α → Tilt} {s : Side} {a : α} {near far : BinaryTree α} :
    Balanced tilt (branch s a near far) ↔
      (tilt a).Fits (s.pick near.height far.height) (s.pick far.height near.height) ∧
        Balanced tilt near ∧ Balanced tilt far := by
  cases s
  · exact Iff.rfl
  · simp only [branch, Balanced, Side.pick]
    tauto

theorem Balanced.congr {tilt tilt' : α → Tilt} {t : BinaryTree α} (balanced : Balanced tilt t)
    (same : ∀ a ∈ inorder t, tilt' a = tilt a) : Balanced tilt' t := by
  induction t with
  | nil => trivial
  | node a l r leftHypothesis rightHypothesis =>
    obtain ⟨here, left, right⟩ := balanced
    refine ⟨?_, leftHypothesis left ?_, rightHypothesis right ?_⟩
    · rw [same a (by simp [inorder])]
      exact here
    · exact fun b member => same b (List.mem_append_left _ member)
    · exact fun b member => same b (List.mem_append_right _ (List.mem_cons_of_mem a member))

/-! ## Other elements at the same places -/

section Map

variable {β : Type*} (f : α → β)

theorem height_map (t : BinaryTree α) : (t.map f).height = t.height := by
  induction t with
  | nil => rfl
  | node a l r leftHypothesis rightHypothesis =>
    rw [BinaryTree.map, BinaryTree.height, BinaryTree.height, leftHypothesis, rightHypothesis]

theorem inorder_map (t : BinaryTree α) : inorder (t.map f) = (inorder t).map f := by
  induction t with
  | nil => rfl
  | node a l r leftHypothesis rightHypothesis =>
    rw [BinaryTree.map, inorder, inorder, leftHypothesis, rightHypothesis, List.map_append, List.map_cons]

theorem map_branch (s : Side) (a : α) (near far : BinaryTree α) :
    (branch s a near far).map f = branch s (f a) (near.map f) (far.map f) := by
  cases s <;> rfl

theorem balanced_map {tilt : β → Tilt} {t : BinaryTree α} :
    Balanced tilt (t.map f) ↔ Balanced (fun a => tilt (f a)) t := by
  induction t with
  | nil => exact Iff.rfl
  | node a l r leftHypothesis rightHypothesis =>
    rw [BinaryTree.map, Balanced, Balanced, height_map, height_map, leftHypothesis, rightHypothesis]

end Map

/-- The frames are balanced around a position of the given height. -/
def BalancedFrames (tilt : α → Tilt) : List (Frame α) → Nat → Prop
  | [], _ => True
  | f :: up, n =>
    (tilt f.elem).Fits (f.side.pick n f.sibling.height) (f.side.pick f.sibling.height n) ∧
      Balanced tilt f.sibling ∧ BalancedFrames tilt up (max n f.sibling.height + 1)

theorem balanced_plug {tilt : α → Tilt} {fs : List (Frame α)} {t : BinaryTree α} :
    Balanced tilt (plug fs t) ↔ BalancedFrames tilt fs t.height ∧ Balanced tilt t := by
  induction fs generalizing t with
  | nil => simp [BalancedFrames]
  | cons f up ih =>
    rw [plug_cons, ih, Frame.fill, balanced_branch, height_branch, BalancedFrames]
    tauto

theorem BalancedFrames.congr {tilt tilt' : α → Tilt} {fs : List (Frame α)} {n : Nat}
    (balanced : BalancedFrames tilt fs n) (same : ∀ a, Around fs a → tilt' a = tilt a) :
    BalancedFrames tilt' fs n := by
  induction fs generalizing n with
  | nil => trivial
  | cons f up ih =>
    obtain ⟨here, sibling, outer⟩ := balanced
    refine ⟨?_, sibling.congr ?_, ih outer ?_⟩
    · rw [same f.elem (around_cons.mpr (.inl rfl))]
      exact here
    · exact fun a member => same a (around_cons.mpr (.inr (.inl member)))
    · exact fun a outside => same a (around_cons.mpr (.inr (.inr outside)))

/-- The height of a filled position depends on the height of what fills it. -/
theorem height_plug_congr {fs : List (Frame α)} {t u : BinaryTree α} (same : t.height = u.height) :
    (plug fs t).height = (plug fs u).height := by
  induction fs generalizing t u with
  | nil => exact same
  | cons f up ih =>
    apply ih
    rw [Frame.fill, Frame.fill, height_branch, height_branch, same]

/-- A path is no longer than the tree is high. -/
theorem length_le_height (fs : List (Frame α)) (t : BinaryTree α) :
    fs.length + t.height ≤ (plug fs t).height := by
  induction fs generalizing t with
  | nil => simp
  | cons f up ih =>
    have outer := ih (f.fill t)
    rw [Frame.fill, height_branch] at outer
    rw [plug_cons, List.length_cons, Frame.fill]
    omega

/-! ## Paths that are pointed out -/

/-- Following the directions from the root leads to the element. -/
def Leads (dir : α → Side) (t : BinaryTree α) (a : α) : Prop :=
  ∃ fs l r, t = plug fs (.node a l r) ∧ ∀ f ∈ fs, dir f.elem = f.side

theorem leads_root (dir : α → Side) (s : Side) (a : α) (near far : BinaryTree α) :
    Leads dir (branch s a near far) a := by
  cases s
  · exact ⟨[], near, far, rfl, by simp⟩
  · exact ⟨[], far, near, rfl, by simp⟩

theorem Leads.fill {dir : α → Side} {t : BinaryTree α} {a : α} (leads : Leads dir t a)
    {f : Frame α} (follows : dir f.elem = f.side) : Leads dir (f.fill t) a := by
  obtain ⟨fs, l, r, rfl, along⟩ := leads
  refine ⟨fs ++ [f], l, r, by rw [plug_append]; rfl, ?_⟩
  intro g member
  rcases List.mem_append.mp member with inner | last
  · exact along g inner
  · rw [List.mem_singleton.mp last]
    exact follows

/-- The path to an element starts at the root and follows its direction. -/
theorem leads_branch {dir : α → Side} {s : Side} {a c : α} {near far : BinaryTree α} :
    Leads dir (branch s a near far) c ↔
      a = c ∨ (dir a = s ∧ Leads dir near c) ∨ (dir a = s.other ∧ Leads dir far c) := by
  constructor
  · rintro ⟨fs, l, r, whole, along⟩
    rcases List.eq_nil_or_concat fs with rfl | ⟨inner, f, rfl⟩
    · have tops := congrArg top whole
      rw [top_branch] at tops
      exact .inl (Option.some.inj tops)
    · rw [List.concat_eq_append] at whole along
      rw [plug_append] at whole
      have below : Leads dir (plug inner (.node c l r)) c :=
        ⟨inner, l, r, rfl, fun g member => along g (List.mem_append_left _ member)⟩
      have follows : dir f.elem = f.side := along f (by simp)
      have shape : branch s a near far = branch f.side f.elem (plug inner (.node c l r)) f.sibling :=
        whole
      have same : a = f.elem := by
        have tops := congrArg top shape
        rw [top_branch, top_branch] at tops
        exact Option.some.inj tops
      rw [← same] at follows shape
      by_cases onSide : f.side = s
      · rw [onSide] at follows shape
        rw [(branch_injective shape).1]
        exact .inr (.inl ⟨follows, below⟩)
      · rw [Side.eq_other_of_ne onSide] at follows shape
        rw [branch_other] at shape
        rw [(branch_injective shape).2]
        exact .inr (.inr ⟨follows, below⟩)
  · rintro (rfl | ⟨follows, leads⟩ | ⟨follows, leads⟩)
    · exact leads_root dir s a near far
    · exact leads.fill (f := ⟨a, s, far⟩) follows
    · have filled := leads.fill (f := ⟨a, s.other, near⟩) follows
      rwa [Frame.fill, branch_other] at filled

theorem Leads.within {dir : α → Side} {t : BinaryTree α} {a : α} (leads : Leads dir t a)
    {fs : List (Frame α)} (follows : ∀ f ∈ fs, dir f.elem = f.side) :
    Leads dir (plug fs t) a := by
  obtain ⟨inner, l, r, rfl, along⟩ := leads
  refine ⟨inner ++ fs, l, r, by rw [plug_append], ?_⟩
  intro g member
  rcases List.mem_append.mp member with below | above
  · exact along g below
  · exact follows g above

theorem Leads.mem {dir : α → Side} {t : BinaryTree α} {a : α} (leads : Leads dir t a) :
    a ∈ inorder t := by
  obtain ⟨fs, l, r, rfl, along⟩ := leads
  rw [inorder_plug]
  simp [inorder]

/-- Only the directions of elements other than the one led to matter. -/
theorem Leads.congr {dir dir' : α → Side} {t : BinaryTree α} {a : α} (leads : Leads dir t a)
    (same : ∀ b ∈ inorder t, dir' b = dir b) : Leads dir' t a := by
  obtain ⟨fs, l, r, rfl, along⟩ := leads
  refine ⟨fs, l, r, rfl, ?_⟩
  intro f member
  rw [same f.elem (mem_inorder_plug.mpr (.inr (frame_around member)))]
  exact along f member

/-! ## Rotations -/

theorem inorder_single (s : Side) (a b : α) (x y z : BinaryTree α) :
    inorder (branch s b x (branch s.other a z y)) = inorder (branch s a (branch s b x y) z) := by
  cases s <;> simp [branch, inorder, Side.other]

theorem inorder_double (s : Side) (a b c : α) (x p q z : BinaryTree α) :
    inorder (branch s c (branch s b x p) (branch s a q z)) =
      inorder (branch s a (branch s b x (branch s c p q)) z) := by
  cases s <;> simp [branch, inorder]

/-- Rotating the heavy child over an element whose near side is two too high. -/
theorem balanced_single {tilt tilt' : α → Tilt} {s : Side} {a b : α} {x y z : BinaryTree α}
    (near : Balanced tilt (branch s b x y)) (far : Balanced tilt z)
    (tall : (branch s b x y).height = z.height + 2) (notOther : tilt b ≠ .toward s.other)
    (below : ∀ c, c ∈ inorder x ∨ c ∈ inorder y ∨ c ∈ inorder z → tilt' c = tilt c)
    (lowered : tilt b ≠ .even → tilt' a = .even ∧ tilt' b = .even)
    (kept : tilt b = .even → tilt' a = .toward s ∧ tilt' b = .toward s.other) :
    Balanced tilt' (branch s b x (branch s.other a z y)) ∧
      (branch s b x (branch s.other a z y)).height =
        if tilt b = .even then z.height + 3 else z.height + 2 := by
  rw [balanced_branch, Tilt.fits_branch] at near
  obtain ⟨fits, xBalanced, yBalanced⟩ := near
  rw [height_branch] at tall
  have xBalanced' := xBalanced.congr fun c member => below c (.inl member)
  have yBalanced' := yBalanced.congr fun c member => below c (.inr (.inl member))
  have zBalanced' := far.congr fun c member => below c (.inr (.inr member))
  simp only [balanced_branch, height_branch, Tilt.fits_branch]
  rcases fits with ⟨even, same⟩ | ⟨toward, higher⟩ | ⟨toward, higher⟩
  · obtain ⟨atA, atB⟩ := kept even
    rw [if_pos even, atA, atB, Side.other_other]
    refine ⟨⟨.inr (.inr ⟨rfl, ?_⟩), xBalanced', .inr (.inr ⟨rfl, ?_⟩), zBalanced', yBalanced'⟩, ?_⟩
    all_goals omega
  · have uneven : tilt b ≠ .even := by simp [toward]
    obtain ⟨atA, atB⟩ := lowered uneven
    rw [if_neg uneven, atA, atB]
    refine ⟨⟨.inl ⟨rfl, ?_⟩, xBalanced', .inl ⟨rfl, ?_⟩, zBalanced', yBalanced'⟩, ?_⟩
    all_goals omega
  · exact absurd toward notOther

/-- Rotating the inner grandchild over both. -/
theorem balanced_double {tilt tilt' : α → Tilt} {s : Side} {a b c : α}
    {x p q z : BinaryTree α} (near : Balanced tilt (branch s b x (branch s c p q)))
    (far : Balanced tilt z) (tall : (branch s b x (branch s c p q)).height = z.height + 2)
    (other : tilt b = .toward s.other)
    (below : ∀ d, d ∈ inorder x ∨ d ∈ inorder p ∨ d ∈ inorder q ∨ d ∈ inorder z →
      tilt' d = tilt d)
    (atTop : tilt' c = .even)
    (atA : tilt' a = if tilt c = .toward s then .toward s.other else .even)
    (atB : tilt' b = if tilt c = .toward s.other then .toward s else .even) :
    Balanced tilt' (branch s c (branch s b x p) (branch s a q z)) ∧
      (branch s c (branch s b x p) (branch s a q z)).height = z.height + 2 := by
  rw [balanced_branch, balanced_branch, Tilt.fits_branch, Tilt.fits_branch] at near
  obtain ⟨fits, xBalanced, inner, pBalanced, qBalanced⟩ := near
  rw [height_branch] at tall
  rw [height_branch] at tall fits
  have xBalanced' := xBalanced.congr fun d member => below d (.inl member)
  have pBalanced' := pBalanced.congr fun d member => below d (.inr (.inl member))
  have qBalanced' := qBalanced.congr fun d member => below d (.inr (.inr (.inl member)))
  have zBalanced' := far.congr fun d member => below d (.inr (.inr (.inr member)))
  have distinct : s.other ≠ s := s.other_ne
  have heavy : max p.height q.height + 1 = x.height + 1 := by
    rcases fits with ⟨even, _⟩ | ⟨toward, _⟩ | ⟨_, higher⟩
    · rw [other] at even
      cases even
    · rw [other] at toward
      exact absurd (Tilt.toward.inj toward) distinct
    · exact higher
  simp only [balanced_branch, height_branch, Tilt.fits_branch]
  rw [atTop, atA, atB]
  rcases inner with ⟨even, same⟩ | ⟨toward, higher⟩ | ⟨toward, higher⟩
  · rw [even, if_neg (by simp), if_neg (by simp)]
    refine ⟨⟨.inl ⟨rfl, ?_⟩, ⟨.inl ⟨rfl, ?_⟩, xBalanced', pBalanced'⟩, .inl ⟨rfl, ?_⟩, qBalanced',
      zBalanced'⟩, ?_⟩
    all_goals omega
  · rw [toward, if_neg (by simpa using distinct.symm), if_pos rfl]
    refine ⟨⟨.inl ⟨rfl, ?_⟩, ⟨.inl ⟨rfl, ?_⟩, xBalanced', pBalanced'⟩, .inr (.inr ⟨rfl, ?_⟩),
      qBalanced', zBalanced'⟩, ?_⟩
    all_goals omega
  · rw [toward, if_pos rfl, if_neg (by simpa using distinct)]
    refine ⟨⟨.inl ⟨rfl, ?_⟩, ⟨.inr (.inl ⟨rfl, ?_⟩), xBalanced', pBalanced'⟩, .inl ⟨rfl, ?_⟩,
      qBalanced', zBalanced'⟩, ?_⟩
    all_goals omega

/-- A path through the near side of the near child survives a single rotation. -/
theorem Leads.single {dir : α → Side} {s : Side} {a b c : α} {x y z : BinaryTree α}
    (follows : dir b = s) (leads : Leads dir x c) :
    Leads dir (branch s b x (branch s.other a z y)) c :=
  leads_branch.mpr (.inr (.inl ⟨follows, leads⟩))

/-- A path through the inner grandchild survives a double rotation, because each
of the three elements still has it on the same side. -/
theorem Leads.double {dir : α → Side} {s : Side} {a b c d : α} {x p q z : BinaryTree α}
    (atA : dir a = s) (atB : dir b = s.other) (leads : Leads dir (branch s c p q) d) :
    Leads dir (branch s c (branch s b x p) (branch s a q z)) d := by
  rw [leads_branch] at leads ⊢
  rcases leads with here | ⟨follows, inner⟩ | ⟨follows, inner⟩
  · exact .inl here
  · exact .inr (.inl ⟨follows, leads_branch.mpr (.inr (.inr ⟨atB, inner⟩))⟩)
  · exact .inr (.inr ⟨follows, leads_branch.mpr (.inr (.inl ⟨atA, inner⟩))⟩)

end Ydb.Lib
