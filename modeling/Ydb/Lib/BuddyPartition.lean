import Mathlib.Data.Nat.Bitwise
import Mathlib.Tactic.Ring

/-!
# Buddy partitions

Blocks of memory are divided into pieces whose sizes are powers of two and which
are aligned to their sizes. The buddy of a piece is the other half of the piece
twice its size; two pieces that are buddies can be merged, and a piece can be
split into two buddies.
-/

namespace Ydb.Lib

/-- The address of the other half. -/
def buddy (a k : Nat) : Nat := a ^^^ 2 ^ k

theorem buddy_eq_mul (q k : Nat) : buddy (q * 2 ^ k) k = (q ^^^ 1) * 2 ^ k := by
  have shifted := @Nat.shiftLeft_xor_distrib k q 1
  rw [Nat.shiftLeft_eq, Nat.shiftLeft_eq, Nat.shiftLeft_eq, Nat.one_mul] at shifted
  exact shifted.symm

theorem buddy_buddy (a k : Nat) : buddy (buddy a k) k = a := by
  rw [buddy, buddy, Nat.xor_assoc, Nat.xor_self, Nat.xor_zero]

/-- One of two buddies is aligned to twice the size, and the other follows it. -/
theorem buddy_cases {a k : Nat} (aligned : 2 ^ k ∣ a) :
    (2 ^ (k + 1) ∣ a ∧ buddy a k = a + 2 ^ k) ∨
      (2 ^ (k + 1) ∣ buddy a k ∧ a = buddy a k + 2 ^ k) := by
  obtain ⟨q, rfl⟩ := aligned
  rw [Nat.mul_comm, buddy_eq_mul, Nat.pow_succ, Nat.mul_comm (2 ^ k) 2]
  rcases Nat.even_or_odd q with even | odd
  · left
    rw [Nat.xor_one_of_even even, Nat.add_mul, Nat.one_mul]
    obtain ⟨r, rfl⟩ := even
    refine ⟨⟨r, ?_⟩, rfl⟩
    ring
  · right
    obtain ⟨r, rfl⟩ := odd
    rw [Nat.xor_one_of_odd ⟨r, rfl⟩, Nat.add_sub_cancel]
    refine ⟨⟨r, ?_⟩, ?_⟩
    · ring
    · ring

theorem buddy_lower {a k : Nat} (aligned : 2 ^ (k + 1) ∣ a) : buddy a k = a + 2 ^ k := by
  obtain ⟨q, rfl⟩ := aligned
  have twice : 2 ^ (k + 1) * q = 2 * q * 2 ^ k := by ring
  rw [twice, buddy_eq_mul, Nat.xor_one_of_even (even_two_mul q), Nat.add_mul, Nat.one_mul]

theorem buddy_aligned {a k : Nat} (aligned : 2 ^ k ∣ a) : 2 ^ k ∣ buddy a k := by
  obtain ⟨q, rfl⟩ := aligned
  rw [Nat.mul_comm, buddy_eq_mul]
  exact Nat.dvd_mul_left _ _

theorem buddy_ne {a k : Nat} (aligned : 2 ^ k ∣ a) : buddy a k ≠ a := by
  rcases buddy_cases aligned with ⟨_, above⟩ | ⟨_, below⟩
  · omega
  · omega

theorem div_two_pow_of_le {x y k l : Nat} (same : x / 2 ^ k = y / 2 ^ k) (larger : k ≤ l) :
    x / 2 ^ l = y / 2 ^ l := by
  obtain ⟨m, rfl⟩ := Nat.exists_eq_add_of_le larger
  rw [Nat.pow_add, ← Nat.div_div_eq_div_mul, ← Nat.div_div_eq_div_mul, same]

/-- An aligned interval is a class of addresses with the same quotient. -/
theorem mem_aligned_iff {a x k : Nat} (aligned : 2 ^ k ∣ a) :
    (a ≤ x ∧ x < a + 2 ^ k) ↔ x / 2 ^ k = a / 2 ^ k := by
  obtain ⟨q, rfl⟩ := aligned
  have positive := Nat.two_pow_pos k
  rw [Nat.mul_div_cancel_left _ positive, Nat.div_eq_iff positive]
  have total : 2 ^ k * q + 2 ^ k - 1 = q * 2 ^ k + (2 ^ k - 1) := by
    rw [Nat.mul_comm, Nat.add_sub_assoc positive]
  rw [Nat.mul_comm q (2 ^ k)] at total ⊢
  omega

/-- Buddies are in the same piece of twice their size. -/
theorem buddy_div {a k : Nat} (aligned : 2 ^ k ∣ a) :
    buddy a k / 2 ^ (k + 1) = a / 2 ^ (k + 1) := by
  rcases buddy_cases aligned with ⟨lower, above⟩ | ⟨lower, below⟩
  · apply (mem_aligned_iff lower).mp
    omega
  · apply Eq.symm
    apply (mem_aligned_iff lower).mp
    omega

/-- A block of the partition. -/
structure Piece where
  index : Nat
  free : Bool
deriving DecidableEq

/-- The pieces by their addresses. -/
abbrev Pieces := Nat → Option Piece

/-- The piece at `a` has the byte at `x`. A piece with index 0 has `2 ^ unit` bytes. -/
def Covers (unit : Nat) (pieces : Pieces) (a x : Nat) : Prop :=
  ∃ e, pieces a = some e ∧ a ≤ x ∧ x < a + 2 ^ (e.index + unit)

theorem covers_self {unit : Nat} {pieces : Pieces} {a : Nat} {e : Piece} (here : pieces a = some e) :
    Covers unit pieces a a :=
  ⟨e, here, Nat.le_refl _, Nat.lt_add_of_pos_right (Nat.two_pow_pos _)⟩

theorem covers_of {unit : Nat} {pieces : Pieces} {a x i : Nat} {free : Bool}
    (here : pieces a = some ⟨i, free⟩) (after : a ≤ x) (before : x < a + 2 ^ (i + unit)) :
    Covers unit pieces a x :=
  ⟨⟨i, free⟩, here, after, before⟩

/-- The pieces partition a region, which is made of blocks of the largest size. -/
structure Partition (unit top : Nat) (region : Nat → Prop) (pieces : Pieces) : Prop where
  index_le : ∀ {a e}, pieces a = some e → e.index ≤ top
  aligned : ∀ {a e}, pieces a = some e → 2 ^ (e.index + unit) ∣ a
  covered : ∀ {x}, region x → ∃ a, Covers unit pieces a x
  inside : ∀ {a x}, Covers unit pieces a x → region x
  apart : ∀ {a b x}, Covers unit pieces a x → Covers unit pieces b x → a = b
  blocks : ∀ {x y}, region x → x / 2 ^ (top + unit) = y / 2 ^ (top + unit) → region y

/-- The bytes of blocks of the largest size. -/
def InBlocks (size : Nat) (blocks : List Nat) (x : Nat) : Prop := ∃ b ∈ blocks, b ≤ x ∧ x < b + size

theorem inBlocks_iff {k : Nat} {blocks : List Nat} (aligned : ∀ b ∈ blocks, 2 ^ k ∣ b) {x : Nat} :
    InBlocks (2 ^ k) blocks x ↔ ∃ b ∈ blocks, x / 2 ^ k = b / 2 ^ k := by
  constructor
  · rintro ⟨b, member, bounds⟩
    exact ⟨b, member, (mem_aligned_iff (aligned b member)).mp bounds⟩
  · rintro ⟨b, member, same⟩
    exact ⟨b, member, (mem_aligned_iff (aligned b member)).mpr same⟩

namespace Partition

variable {unit top : Nat} {region : Nat → Prop} {pieces : Pieces}

/-- The buddy of a piece is where a piece starts that is not larger. -/
theorem piece_at_buddy (partition : Partition unit top region pieces) {a : Nat} {e : Piece}
    (here : pieces a = some e) (small : e.index < top) :
    ∃ e', pieces (buddy a (e.index + unit)) = some e' ∧ e'.index ≤ e.index := by
  have aligned := partition.aligned here
  have together := buddy_div aligned
  have inRegion : region (buddy a (e.index + unit)) := by
    apply partition.blocks (partition.inside (covers_self here))
    exact div_two_pow_of_le together.symm (by omega)
  obtain ⟨c, covers⟩ := partition.covered inRegion
  obtain ⟨e', found, from', upto⟩ := covers
  have class' := (mem_aligned_iff (partition.aligned found)).mp ⟨from', upto⟩
  -- A larger piece would have the piece at `a` in it.
  have notLarger : e'.index ≤ e.index := by
    by_contra larger
    have sameClass : a / 2 ^ (e'.index + unit) = c / 2 ^ (e'.index + unit) := by
      rw [← class']
      exact (div_two_pow_of_le together (by omega)).symm
    have overlap : Covers unit pieces c a :=
      ⟨e', found, (mem_aligned_iff (partition.aligned found)).mpr sameClass⟩
    obtain rfl := partition.apart overlap (covers_self here)
    rw [here] at found
    obtain rfl := Option.some.inj found
    exact larger (Nat.le_refl _)
  have buddyAligned : 2 ^ (e'.index + unit) ∣ buddy a (e.index + unit) :=
    Nat.dvd_trans (Nat.pow_dvd_pow 2 (by omega)) (buddy_aligned aligned)
  obtain rfl : c = buddy a (e.index + unit) := by
    obtain ⟨q, qEq⟩ := buddyAligned
    obtain ⟨r, rEq⟩ := partition.aligned found
    have positive := Nat.two_pow_pos (e'.index + unit)
    rw [qEq, rEq, Nat.mul_div_cancel_left _ positive, Nat.mul_div_cancel_left _ positive] at class'
    rw [qEq, rEq, class']
  exact ⟨e', found, notLarger⟩

theorem piece_aligned (partition : Partition unit top region pieces) {a i : Nat} {free : Bool}
    (here : pieces a = some ⟨i, free⟩) : 2 ^ (i + unit) ∣ a := partition.aligned here

theorem piece_index_le (partition : Partition unit top region pieces) {a i : Nat} {free : Bool}
    (here : pieces a = some ⟨i, free⟩) : i ≤ top := partition.index_le here

/-- No piece starts inside of another one. -/
theorem none_inside (partition : Partition unit top region pieces) {a b i : Nat} {free : Bool}
    (here : pieces a = some ⟨i, free⟩) (after : a < b) (before : b < a + 2 ^ (i + unit)) :
    pieces b = none := by
  cases found : pieces b with
  | none => rfl
  | some f =>
    have same := partition.apart (covers_of here (Nat.le_of_lt after) before) (covers_self found)
    omega

/-- A piece starts at the start of a block. -/
theorem piece_at_block (partition : Partition unit top region pieces) {b : Nat} (inRegion : region b)
    (aligned : 2 ^ (top + unit) ∣ b) : ∃ e, pieces b = some e := by
  obtain ⟨a, e, found, bounds⟩ := partition.covered inRegion
  have pieceAligned := partition.aligned found
  have same := (mem_aligned_iff pieceAligned).mp bounds
  have small : e.index + unit ≤ top + unit := Nat.add_le_add_right (partition.index_le found) unit
  obtain ⟨q, qEq⟩ := Nat.dvd_trans (Nat.pow_dvd_pow 2 small) aligned
  obtain ⟨r, rEq⟩ := pieceAligned
  have positive := Nat.two_pow_pos (e.index + unit)
  rw [qEq, rEq, Nat.mul_div_cancel_left _ positive, Nat.mul_div_cancel_left _ positive] at same
  refine ⟨e, ?_⟩
  rw [qEq, same, ← rEq]
  exact found

/-- Only what is free changes. -/
theorem setFree (partition : Partition unit top region pieces) {a : Nat} {e : Piece}
    (here : pieces a = some e) (free : Bool) :
    Partition unit top region (Function.update pieces a (some { e with free := free })) := by
  have sameIndex : ∀ {b f}, Function.update pieces a (some { e with free := free }) b = some f →
      ∃ f', pieces b = some f' ∧ f'.index = f.index := by
    intro b f found
    by_cases same : b = a
    · subst same
      rw [Function.update_self] at found
      obtain rfl := Option.some.inj found
      exact ⟨e, here, rfl⟩
    · rw [Function.update_of_ne same] at found
      exact ⟨f, found, rfl⟩
  have covers : ∀ {b x}, Covers unit (Function.update pieces a (some { e with free := free })) b x →
      Covers unit pieces b x := by
    rintro b x ⟨f, found, bounds⟩
    obtain ⟨f', found', same⟩ := sameIndex found
    exact ⟨f', found', by rw [same]; exact bounds⟩
  refine ⟨?_, ?_, ?_, ?_, ?_, partition.blocks⟩
  · intro b f found
    obtain ⟨f', found', same⟩ := sameIndex found
    rw [← same]
    exact partition.index_le found'
  · intro b f found
    obtain ⟨f', found', same⟩ := sameIndex found
    rw [← same]
    exact partition.aligned found'
  · intro x inRegion
    obtain ⟨b, f, found, bounds⟩ := partition.covered inRegion
    by_cases same : b = a
    · subst same
      rw [here] at found
      obtain rfl := Option.some.inj found
      exact ⟨b, _, Function.update_self .., bounds⟩
    · refine ⟨b, f, ?_, bounds⟩
      rw [Function.update_of_ne same]
      exact found
  · intro b x found
    exact partition.inside (covers found)
  · intro b c x first second
    exact partition.apart (covers first) (covers second)

/-- Split a piece into two buddies. -/
theorem split (partition : Partition unit top region pieces) {a i : Nat} {free : Bool}
    (here : pieces a = some ⟨i + 1, free⟩) (low high : Bool) :
    Partition unit top region (Function.update (Function.update pieces a (some ⟨i, low⟩))
      (a + 2 ^ (i + unit)) (some ⟨i, high⟩)) := by
  have positive := Nat.two_pow_pos (i + unit)
  have double : 2 ^ (i + 1 + unit) = 2 ^ (i + unit) + 2 ^ (i + unit) := by
    rw [Nat.add_right_comm, Nat.pow_succ, Nat.mul_two]
  have smaller : i + unit ≤ i + 1 + unit := by omega
  have halfAligned : 2 ^ (i + unit) ∣ a :=
    Nat.dvd_trans (Nat.pow_dvd_pow 2 smaller) (partition.aligned here)
  have indexLe := partition.index_le here
  -- A piece is one of the halves, or one of the other old pieces.
  have pieceCases : ∀ {b f}, Function.update (Function.update pieces a (some ⟨i, low⟩))
      (a + 2 ^ (i + unit)) (some ⟨i, high⟩) b = some f →
      (b = a + 2 ^ (i + unit) ∧ f.index = i) ∨ (b = a ∧ f.index = i) ∨
        (b ≠ a ∧ pieces b = some f) := by
    intro b f found
    by_cases upper : b = a + 2 ^ (i + unit)
    · subst upper
      rw [Function.update_self] at found
      obtain rfl := Option.some.inj found
      exact .inl ⟨rfl, rfl⟩
    · rw [Function.update_of_ne upper] at found
      by_cases lower : b = a
      · subst lower
        rw [Function.update_self] at found
        obtain rfl := Option.some.inj found
        exact .inr (.inl ⟨rfl, rfl⟩)
      · rw [Function.update_of_ne lower] at found
        exact .inr (.inr ⟨lower, found⟩)
  have origin : ∀ {b x}, Covers unit (Function.update (Function.update pieces a (some ⟨i, low⟩))
      (a + 2 ^ (i + unit)) (some ⟨i, high⟩)) b x →
      (Covers unit pieces a x ∧ ((b = a ∧ x < a + 2 ^ (i + unit)) ∨
        (b = a + 2 ^ (i + unit) ∧ a + 2 ^ (i + unit) ≤ x))) ∨ (b ≠ a ∧ Covers unit pieces b x) := by
    rintro b x ⟨f, found, from', upto⟩
    rcases pieceCases found with ⟨rfl, index⟩ | ⟨rfl, index⟩ | ⟨other, old⟩
    · rw [index] at upto
      refine .inl ⟨⟨_, here, by omega, ?_⟩, .inr ⟨rfl, from'⟩⟩
      show x < a + 2 ^ (i + 1 + unit)
      omega
    · rw [index] at upto
      refine .inl ⟨⟨_, here, from', ?_⟩, .inl ⟨rfl, upto⟩⟩
      show x < b + 2 ^ (i + 1 + unit)
      omega
    · exact .inr ⟨other, f, old, from', upto⟩
  refine ⟨?_, ?_, ?_, ?_, ?_, partition.blocks⟩
  · intro b f found
    rcases pieceCases found with ⟨_, index⟩ | ⟨_, index⟩ | ⟨_, old⟩
    · have : i + 1 ≤ top := indexLe
      omega
    · have : i + 1 ≤ top := indexLe
      omega
    · exact partition.index_le old
  · intro b f found
    rcases pieceCases found with ⟨rfl, index⟩ | ⟨rfl, index⟩ | ⟨_, old⟩
    · rw [index]
      exact Nat.dvd_add halfAligned (Nat.dvd_refl _)
    · rw [index]
      exact halfAligned
    · exact partition.aligned old
  · intro x inRegion
    obtain ⟨b, f, found, from', upto⟩ := partition.covered inRegion
    by_cases same : b = a
    · subst same
      rw [here] at found
      obtain rfl := Option.some.inj found
      by_cases lower : x < b + 2 ^ (i + unit)
      · refine ⟨b, ⟨i, low⟩, ?_, from', lower⟩
        rw [Function.update_of_ne (by omega), Function.update_self]
      · refine ⟨b + 2 ^ (i + unit), ⟨i, high⟩, Function.update_self .., by omega, ?_⟩
        have : x < b + 2 ^ (i + 1 + unit) := upto
        show x < b + 2 ^ (i + unit) + 2 ^ (i + unit)
        omega
    · refine ⟨b, f, ?_, from', upto⟩
      have notUpper : b ≠ a + 2 ^ (i + unit) := by
        rintro rfl
        have overlap : Covers unit pieces a (a + 2 ^ (i + unit)) := by
          refine ⟨_, here, by omega, ?_⟩
          show _ < a + 2 ^ (i + 1 + unit)
          omega
        have equal := partition.apart overlap (covers_self found)
        omega
      rw [Function.update_of_ne notUpper, Function.update_of_ne same]
      exact found
  · intro b x found
    rcases origin found with ⟨old, _⟩ | ⟨_, old⟩
    · exact partition.inside old
    · exact partition.inside old
  · intro b c x first second
    rcases origin first with ⟨old, halves⟩ | ⟨other, old⟩
    · rcases origin second with ⟨_, halves'⟩ | ⟨other', old'⟩
      · omega
      · exact absurd (partition.apart old' old) other'
    · rcases origin second with ⟨old', _⟩ | ⟨_, old'⟩
      · exact absurd (partition.apart old old') other
      · exact partition.apart old old'

/-- Merge two buddies into a piece of twice their size. -/
theorem merge (partition : Partition unit top region pieces) {a i : Nat} {low high : Bool}
    (lower : pieces a = some ⟨i, low⟩) (upper : pieces (a + 2 ^ (i + unit)) = some ⟨i, high⟩)
    (small : i < top) (aligned : 2 ^ (i + unit + 1) ∣ a) (free : Bool) :
    Partition unit top region (Function.update (Function.update pieces (a + 2 ^ (i + unit)) none) a
      (some ⟨i + 1, free⟩)) := by
  have double : 2 ^ (i + 1 + unit) = 2 ^ (i + unit) + 2 ^ (i + unit) := by
    rw [Nat.add_right_comm, Nat.pow_succ, Nat.mul_two]
  have pieceCases : ∀ {b f}, Function.update (Function.update pieces (a + 2 ^ (i + unit)) none) a
      (some ⟨i + 1, free⟩) b = some f →
      (b = a ∧ f.index = i + 1) ∨ (b ≠ a ∧ b ≠ a + 2 ^ (i + unit) ∧ pieces b = some f) := by
    intro b f found
    by_cases isLower : b = a
    · subst isLower
      rw [Function.update_self] at found
      obtain rfl := Option.some.inj found
      exact .inl ⟨rfl, rfl⟩
    · rw [Function.update_of_ne isLower] at found
      by_cases isUpper : b = a + 2 ^ (i + unit)
      · subst isUpper
        rw [Function.update_self] at found
        cases found
      · rw [Function.update_of_ne isUpper] at found
        exact .inr ⟨isLower, isUpper, found⟩
  have origin : ∀ {b x}, Covers unit (Function.update (Function.update pieces (a + 2 ^ (i + unit))
      none) a (some ⟨i + 1, free⟩)) b x →
      (b = a ∧ (Covers unit pieces a x ∨ Covers unit pieces (a + 2 ^ (i + unit)) x)) ∨
        (b ≠ a ∧ b ≠ a + 2 ^ (i + unit) ∧ Covers unit pieces b x) := by
    rintro b x ⟨f, found, from', upto⟩
    rcases pieceCases found with ⟨rfl, index⟩ | ⟨notLower, notUpper, old⟩
    · rw [index] at upto
      refine .inl ⟨rfl, ?_⟩
      by_cases first : x < b + 2 ^ (i + unit)
      · exact .inl ⟨_, lower, from', first⟩
      · refine .inr ⟨_, upper, by omega, ?_⟩
        show x < b + 2 ^ (i + unit) + 2 ^ (i + unit)
        omega
    · exact .inr ⟨notLower, notUpper, f, old, from', upto⟩
  refine ⟨?_, ?_, ?_, ?_, ?_, partition.blocks⟩
  · intro b f found
    rcases pieceCases found with ⟨_, index⟩ | ⟨_, _, old⟩
    · omega
    · exact partition.index_le old
  · intro b f found
    rcases pieceCases found with ⟨rfl, index⟩ | ⟨_, _, old⟩
    · rw [index, Nat.add_right_comm]
      exact aligned
    · exact partition.aligned old
  · intro x inRegion
    obtain ⟨b, f, found, from', upto⟩ := partition.covered inRegion
    by_cases isLower : b = a
    · subst isLower
      rw [lower] at found
      obtain rfl := Option.some.inj found
      refine ⟨b, _, Function.update_self .., from', ?_⟩
      have : x < b + 2 ^ (i + unit) := upto
      show x < b + 2 ^ (i + 1 + unit)
      omega
    · by_cases isUpper : b = a + 2 ^ (i + unit)
      · subst isUpper
        rw [upper] at found
        obtain rfl := Option.some.inj found
        refine ⟨a, _, Function.update_self .., by omega, ?_⟩
        have : x < a + 2 ^ (i + unit) + 2 ^ (i + unit) := upto
        show x < a + 2 ^ (i + 1 + unit)
        omega
      · refine ⟨b, f, ?_, from', upto⟩
        rw [Function.update_of_ne isLower, Function.update_of_ne isUpper]
        exact found
  · intro b x found
    rcases origin found with ⟨_, old | old⟩ | ⟨_, _, old⟩
    · exact partition.inside old
    · exact partition.inside old
    · exact partition.inside old
  · intro b c x first second
    rcases origin first with ⟨rfl, old⟩ | ⟨notLower, notUpper, old⟩
    · rcases origin second with ⟨rfl, _⟩ | ⟨notLower', notUpper', old'⟩
      · rfl
      · rcases old with old | old
        · exact absurd (partition.apart old' old) notLower'
        · exact absurd (partition.apart old' old) notUpper'
    · rcases origin second with ⟨rfl, old' | old'⟩ | ⟨_, _, old'⟩
      · exact absurd (partition.apart old old') notLower
      · exact absurd (partition.apart old old') notUpper
      · exact partition.apart old old'

/-- Add blocks, each of them one piece. -/
theorem add (partition : Partition unit top region pieces) {blocks : List Nat}
    (aligned : ∀ b ∈ blocks, 2 ^ (top + unit) ∣ b) (fresh : ∀ b ∈ blocks, ¬ region b)
    (free : Nat → Bool) :
    Partition unit top (fun x => region x ∨ InBlocks (2 ^ (top + unit)) blocks x)
      (fun a => if a ∈ blocks then some ⟨top, free a⟩ else pieces a) := by
  have origin : ∀ {b x}, Covers unit (fun a => if a ∈ blocks then some ⟨top, free a⟩ else pieces a) b x →
      (b ∈ blocks ∧ x / 2 ^ (top + unit) = b / 2 ^ (top + unit)) ∨ Covers unit pieces b x := by
    rintro b x ⟨f, found, bounds⟩
    dsimp only at found
    split at found
    next member =>
      obtain rfl := Option.some.inj found
      exact .inl ⟨member, (mem_aligned_iff (aligned b member)).mp bounds⟩
    · exact .inr ⟨f, found, bounds⟩
  have notOld : ∀ {b c x}, b ∈ blocks → x / 2 ^ (top + unit) = b / 2 ^ (top + unit) →
      ¬ Covers unit pieces c x := by
    intro b c x member same old
    exact fresh b member (partition.blocks (partition.inside old) same)
  refine ⟨?_, ?_, ?_, ?_, ?_, ?_⟩
  · intro b f found
    split at found
    · obtain rfl := Option.some.inj found
      exact Nat.le_refl _
    · exact partition.index_le found
  · intro b f found
    split at found
    next member =>
      obtain rfl := Option.some.inj found
      exact aligned b member
    · exact partition.aligned found
  · rintro x (old | ⟨b, member, bounds⟩)
    · obtain ⟨b, f, found, bounds⟩ := partition.covered old
      refine ⟨b, f, ?_, bounds⟩
      dsimp only
      rw [if_neg, found]
      intro member
      exact fresh b member (partition.inside (covers_self found))
    · exact ⟨b, ⟨top, free b⟩, if_pos member, bounds⟩
  · intro b x found
    rcases origin found with ⟨member, same⟩ | old
    · exact .inr ((inBlocks_iff aligned).mpr ⟨b, member, same⟩)
    · exact .inl (partition.inside old)
  · intro b c x first second
    rcases origin first with ⟨member, same⟩ | old
    · rcases origin second with ⟨member', same'⟩ | old'
      · have positive := Nat.two_pow_pos (top + unit)
        obtain ⟨q, rfl⟩ := aligned b member
        obtain ⟨r, rfl⟩ := aligned c member'
        rw [same, Nat.mul_div_cancel_left _ positive, Nat.mul_div_cancel_left _ positive] at same'
        rw [same']
      · exact absurd old' (notOld member same)
    · rcases origin second with ⟨member', same'⟩ | old'
      · exact absurd old (notOld member' same')
      · exact partition.apart old old'
  · rintro x y (old | new) same
    · exact .inl (partition.blocks old same)
    · obtain ⟨b, member, same'⟩ := (inBlocks_iff aligned).mp new
      exact .inr ((inBlocks_iff aligned).mpr ⟨b, member, same.symm.trans same'⟩)

/-- Remove blocks that are one piece each. -/
theorem remove (partition : Partition unit top region pieces) {blocks : List Nat}
    (whole : ∀ b ∈ blocks, ∃ free, pieces b = some ⟨top, free⟩) :
    Partition unit top (fun x => region x ∧ ¬ InBlocks (2 ^ (top + unit)) blocks x)
      (fun a => if a ∈ blocks then none else pieces a) := by
  have aligned : ∀ b ∈ blocks, 2 ^ (top + unit) ∣ b := by
    intro b member
    obtain ⟨free, here⟩ := whole b member
    exact partition.aligned here
  have origin : ∀ {b f}, (if b ∈ blocks then none else pieces b) = some f →
      b ∉ blocks ∧ pieces b = some f := by
    intro b f found
    split at found
    · cases found
    next absent => exact ⟨absent, found⟩
  refine ⟨?_, ?_, ?_, ?_, ?_, ?_⟩
  · intro b f found
    exact partition.index_le (origin found).2
  · intro b f found
    exact partition.aligned (origin found).2
  · rintro x ⟨old, kept⟩
    obtain ⟨b, f, found, bounds⟩ := partition.covered old
    refine ⟨b, f, ?_, bounds⟩
    dsimp only
    rw [if_neg, found]
    intro member
    obtain ⟨free, here⟩ := whole b member
    rw [here] at found
    obtain rfl := Option.some.inj found
    exact kept ⟨b, member, bounds⟩
  · rintro b x ⟨f, found, bounds⟩
    obtain ⟨absent, old⟩ := origin found
    refine ⟨partition.inside ⟨f, old, bounds⟩, ?_⟩
    rintro ⟨c, member, inside⟩
    obtain ⟨free, here⟩ := whole c member
    obtain rfl := partition.apart ⟨f, old, bounds⟩ ⟨_, here, inside⟩
    exact absent member
  · rintro b c x ⟨f, found, bounds⟩ ⟨g, found', bounds'⟩
    exact partition.apart ⟨f, (origin found).2, bounds⟩ ⟨g, (origin found').2, bounds'⟩
  · rintro x y ⟨old, kept⟩ same
    refine ⟨partition.blocks old same, ?_⟩
    intro new
    obtain ⟨b, member, same'⟩ := (inBlocks_iff aligned).mp new
    exact kept ((inBlocks_iff aligned).mpr ⟨b, member, same.trans same'⟩)

end Partition

end Ydb.Lib
