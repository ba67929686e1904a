import Mathlib.Data.Int.Log
import Mathlib.Data.Rat.Floor
import Mathlib.Tactic.Linarith
import Mathlib.Tactic.Positivity

/-!
# Truncation to significant digits

The exponent of a nonzero rational is the number of digits before its point, in
the given base: `exponent b q = e` says that `|q|` lies in `[b^(e-1), b^e)`.
`truncateAt b k` drops the digits below `b^k`, toward zero, and `truncateTo b n`
keeps the first `n` significant digits. A rational that is caught between two
neighbouring multiples of a power is truncated to the lower one, and these bounds
are all that a proof about an algorithm has to supply.
-/

namespace Ydb.Lib

variable (b : ℕ)

/-- The number of digits before the point; not positive for a small fraction. -/
def exponent (q : ℚ) : ℤ := Int.log b |q| + 1

/-- Drop the digits below the power `k` of the base. -/
def truncateAt (k : ℤ) (q : ℚ) : ℚ :=
  if q < 0 then -(⌊-q / (b : ℚ) ^ k⌋ * (b : ℚ) ^ k) else ⌊q / (b : ℚ) ^ k⌋ * (b : ℚ) ^ k

/-- Keep `n` significant digits. -/
def truncateTo (n : ℕ) (q : ℚ) : ℚ := truncateAt b (exponent b q - n) q

variable {b}

theorem exponent_neg (q : ℚ) : exponent b (-q) = exponent b q := by
  rw [exponent, exponent, abs_neg]

/-- The bounds of a magnitude determine the exponent. -/
theorem exponent_of_bounds (base : 1 < b) {q : ℚ} {e : ℤ} (lo : (b : ℚ) ^ (e - 1) ≤ |q|)
    (hi : |q| < (b : ℚ) ^ e) : exponent b q = e := by
  have positive : 0 < |q| := lt_of_lt_of_le (zpow_pos (by positivity) _) lo
  have below := (Int.zpow_le_iff_le_log base positive).mp lo
  have above := (Int.lt_zpow_iff_log_lt base positive).mp hi
  rw [exponent]
  omega

/-- A nonzero rational has a leading digit at its exponent. -/
theorem exponent_bounds (base : 1 < b) {q : ℚ} (nonzero : q ≠ 0) :
    (b : ℚ) ^ (exponent b q - 1) ≤ |q| ∧ |q| < (b : ℚ) ^ exponent b q := by
  rw [exponent, add_sub_cancel_right]
  exact ⟨Int.zpow_log_le_self base (abs_pos.mpr nonzero), Int.lt_zpow_succ_log_self base _⟩

theorem le_exponent (base : 1 < b) {q : ℚ} {e : ℤ} (lo : (b : ℚ) ^ (e - 1) ≤ |q|) :
    e ≤ exponent b q := by
  have positive : 0 < |q| := lt_of_lt_of_le (zpow_pos (by positivity) _) lo
  have below := (Int.zpow_le_iff_le_log base positive).mp lo
  rw [exponent]
  omega

theorem exponent_le (base : 1 < b) {q : ℚ} (nonzero : q ≠ 0) {e : ℤ} (hi : |q| < (b : ℚ) ^ e) :
    exponent b q ≤ e := by
  have above := (Int.lt_zpow_iff_log_lt base (abs_pos.mpr nonzero)).mp hi
  rw [exponent]
  omega

@[simp] theorem truncateAt_zero (k : ℤ) : truncateAt b k 0 = 0 := by
  simp [truncateAt]

theorem truncateAt_of_nonneg (k : ℤ) {q : ℚ} (nonneg : 0 ≤ q) :
    truncateAt b k q = ⌊q / (b : ℚ) ^ k⌋ * (b : ℚ) ^ k := by
  rw [truncateAt, if_neg (not_lt.mpr nonneg)]

theorem truncateAt_neg (k : ℤ) (q : ℚ) : truncateAt b k (-q) = -truncateAt b k q := by
  rcases lt_trichotomy q 0 with negative | rfl | positive
  · rw [truncateAt, truncateAt, if_neg (by linarith), if_pos negative, neg_neg]
  · simp
  · rw [truncateAt, truncateAt, if_pos (by linarith), if_neg (by linarith), neg_neg]

theorem truncateTo_neg (n : ℕ) (q : ℚ) : truncateTo b n (-q) = -truncateTo b n q := by
  rw [truncateTo, truncateTo, exponent_neg, truncateAt_neg]

@[simp] theorem truncateTo_zero (n : ℕ) : truncateTo b n 0 = 0 := truncateAt_zero _

/-- A rational between two neighbouring multiples is truncated to the lower one. -/
theorem truncateAt_of_bounds (base : 1 < b) {q : ℚ} {m : ℕ} {k : ℤ} (lo : m * (b : ℚ) ^ k ≤ q)
    (hi : q < (m + 1) * (b : ℚ) ^ k) : truncateAt b k q = m * (b : ℚ) ^ k := by
  have unit : (0 : ℚ) < (b : ℚ) ^ k := zpow_pos (by positivity) _
  have nonneg : 0 ≤ q := le_trans (by positivity) lo
  have floor : ⌊q / (b : ℚ) ^ k⌋ = (m : ℤ) := by
    rw [Int.floor_eq_iff]
    constructor
    · rw [le_div_iff₀ unit]
      exact_mod_cast lo
    · rw [div_lt_iff₀ unit]
      exact_mod_cast hi
  rw [truncateAt_of_nonneg k nonneg, floor, Int.cast_natCast]

/-- The same for significant digits: the multiplier has exactly `n` of them. -/
theorem truncateTo_of_bounds (base : 1 < b) {q : ℚ} {m n : ℕ} {k : ℤ} (wide : b ^ n ≤ b * m)
    (narrow : m < b ^ n) (lo : m * (b : ℚ) ^ k ≤ q) (hi : q < (m + 1) * (b : ℚ) ^ k) :
    truncateTo b n q = m * (b : ℚ) ^ k := by
  have basePos : (0 : ℚ) < b := by positivity
  have unit : (0 : ℚ) < (b : ℚ) ^ k := zpow_pos basePos _
  have nonneg : 0 ≤ q := le_trans (by positivity) lo
  have exact : exponent b q = n + k := by
    apply exponent_of_bounds base
    · rw [abs_of_nonneg nonneg, zpow_sub_one₀ basePos.ne', zpow_add₀ basePos.ne', zpow_natCast]
      have leading : (b : ℚ) ^ n ≤ b * m := by exact_mod_cast wide
      calc (b : ℚ) ^ n * (b : ℚ) ^ k * (b : ℚ)⁻¹ ≤ b * m * (b : ℚ) ^ k * (b : ℚ)⁻¹ := by gcongr
        _ = m * (b : ℚ) ^ k := by field_simp
        _ ≤ q := lo
    · rw [abs_of_nonneg nonneg, zpow_add₀ basePos.ne', zpow_natCast]
      have fits : (m : ℚ) + 1 ≤ (b : ℚ) ^ n := by exact_mod_cast narrow
      calc q < (m + 1) * (b : ℚ) ^ k := hi
        _ ≤ (b : ℚ) ^ n * (b : ℚ) ^ k := by gcongr
  rw [truncateTo, exact, add_sub_cancel_left]
  exact truncateAt_of_bounds base lo hi

/-- A multiple with at most `n` digits keeps all of them. -/
theorem truncateTo_of_short (base : 1 < b) {m n : ℕ} {k : ℤ} (narrow : m < b ^ n) :
    truncateTo b n (m * (b : ℚ) ^ k) = m * (b : ℚ) ^ k := by
  rcases Nat.eq_zero_or_pos m with rfl | positive
  · simp
  · have basePos : (0 : ℚ) < b := by positivity
    -- Shift the multiplier left until its first digit is the `n`th.
    have log : Nat.log b m < n := Nat.log_lt_of_lt_pow (by omega) narrow
    have digits := Nat.lt_pow_succ_log_self base m
    have leading := Nat.pow_log_le_self b (by omega : m ≠ 0)
    set shift := n - (Nat.log b m + 1) with shiftEq
    have total : n = Nat.log b m + 1 + shift := by omega
    have shifted : (m : ℚ) * (b : ℚ) ^ k = ((m * b ^ shift : ℕ) : ℚ) * (b : ℚ) ^ (k - shift) := by
      push_cast
      rw [mul_assoc, ← zpow_natCast (b : ℚ) shift, ← zpow_add₀ basePos.ne', add_sub_cancel]
    rw [shifted]
    apply truncateTo_of_bounds base
    · calc b ^ n = b * (b ^ Nat.log b m * b ^ shift) := by rw [total]; ring
        _ ≤ b * (m * b ^ shift) := by gcongr
    · calc m * b ^ shift < b ^ (Nat.log b m + 1) * b ^ shift :=
          Nat.mul_lt_mul_of_pos_right digits (Nat.pow_pos (by omega))
        _ = b ^ n := by rw [← Nat.pow_add, ← total]
    · exact le_refl _
    · have unit : (0 : ℚ) < (b : ℚ) ^ (k - shift) := zpow_pos basePos _
      linarith

/-- Truncation moves a rational by less than the power, toward zero. -/
theorem abs_sub_truncateAt_lt (base : 1 < b) (k : ℤ) (q : ℚ) :
    |q - truncateAt b k q| < (b : ℚ) ^ k := by
  have unit : (0 : ℚ) < (b : ℚ) ^ k := zpow_pos (by positivity) _
  have ofNonneg : ∀ q : ℚ, 0 ≤ q → |q - truncateAt b k q| < (b : ℚ) ^ k := by
    intro q nonneg
    have below := Int.floor_le (q / (b : ℚ) ^ k)
    have above := Int.lt_floor_add_one (q / (b : ℚ) ^ k)
    rw [le_div_iff₀ unit] at below
    rw [div_lt_iff₀ unit, add_mul, one_mul] at above
    rw [truncateAt_of_nonneg k nonneg, abs_of_nonneg (by linarith)]
    linarith
  rcases le_total 0 q with nonneg | nonpos
  · exact ofNonneg q nonneg
  · have mirrored := ofNonneg (-q) (by linarith)
    rwa [truncateAt_neg, sub_neg_eq_add, ← abs_neg, neg_add, neg_neg, ← sub_eq_add_neg] at mirrored

/-- A multiple of the power below a rational stays below its truncation. -/
theorem le_truncateAt (base : 1 < b) {k : ℤ} {q : ℚ} (nonneg : 0 ≤ q) {j : ℤ}
    (below : j * (b : ℚ) ^ k ≤ q) : j * (b : ℚ) ^ k ≤ truncateAt b k q := by
  have unit : (0 : ℚ) < (b : ℚ) ^ k := zpow_pos (by positivity) _
  have floor : j ≤ ⌊q / (b : ℚ) ^ k⌋ := Int.le_floor.mpr ((le_div_iff₀ unit).mpr below)
  rw [truncateAt_of_nonneg k nonneg]
  exact mul_le_mul_of_nonneg_right (by exact_mod_cast floor) unit.le

theorem truncateAt_le (base : 1 < b) (k : ℤ) {q : ℚ} (nonneg : 0 ≤ q) : truncateAt b k q ≤ q := by
  have unit : (0 : ℚ) < (b : ℚ) ^ k := zpow_pos (by positivity) _
  rw [truncateAt_of_nonneg k nonneg, ← le_div_iff₀ unit]
  exact Int.floor_le _

/-- Adding a multiple of the power commutes with truncation. -/
theorem truncateAt_add (base : 1 < b) (k : ℤ) (m : ℕ) {q : ℚ} (nonneg : 0 ≤ q) :
    truncateAt b k (m * (b : ℚ) ^ k + q) = m * (b : ℚ) ^ k + truncateAt b k q := by
  have unit : (0 : ℚ) < (b : ℚ) ^ k := zpow_pos (by positivity) _
  have total : 0 ≤ m * (b : ℚ) ^ k + q := by positivity
  rw [truncateAt_of_nonneg k total, truncateAt_of_nonneg k nonneg, add_div,
    mul_div_assoc, div_self unit.ne', mul_one, Int.floor_natCast_add]
  push_cast
  ring

/-- A multiple of a higher power loses nothing. -/
theorem truncateAt_of_multiple (base : 1 < b) {k : ℤ} (j : ℤ) (shift : ℕ) :
    truncateAt b k (j * (b : ℚ) ^ (k + shift)) = j * (b : ℚ) ^ (k + shift) := by
  have basePos : (0 : ℚ) < b := by positivity
  have ofNat : ∀ m : ℕ, truncateAt b k (m * (b : ℚ) ^ (k + shift)) = m * (b : ℚ) ^ (k + shift) := by
    intro m
    have regrouped : (m : ℚ) * (b : ℚ) ^ (k + shift) = ((m * b ^ shift : ℕ) : ℚ) * (b : ℚ) ^ k := by
      rw [zpow_add₀ basePos.ne', zpow_natCast]
      push_cast
      ring
    have sum := truncateAt_add base k (m * b ^ shift) (le_refl (0 : ℚ))
    rwa [add_zero, truncateAt_zero, add_zero, ← regrouped] at sum
  obtain ⟨m, rfl | rfl⟩ := Int.eq_nat_or_neg j
  · rw [Int.cast_natCast]
    exact ofNat m
  · rw [Int.cast_neg, Int.cast_natCast, neg_mul, truncateAt_neg, ofNat]

/-- The leading digits of a positive rational. -/
theorem exists_leading (base : 1 < b) {n : ℕ} (some : 1 ≤ n) {q : ℚ} (positive : 0 < q) :
    ∃ m : ℕ, b ^ n ≤ b * m ∧ m < b ^ n ∧ m * (b : ℚ) ^ (exponent b q - n) ≤ q ∧
      q < (m + 1) * (b : ℚ) ^ (exponent b q - n) := by
  have basePos : (0 : ℚ) < b := by positivity
  have unit : (0 : ℚ) < (b : ℚ) ^ (exponent b q - n) := zpow_pos basePos _
  obtain ⟨lo, hi⟩ := exponent_bounds base positive.ne'
  rw [abs_of_pos positive] at lo hi
  have floorNonneg : 0 ≤ ⌊q / (b : ℚ) ^ (exponent b q - n)⌋ := Int.floor_nonneg.mpr (by positivity)
  obtain ⟨m, floor⟩ := Int.eq_ofNat_of_zero_le floorNonneg
  have bounds := Int.floor_eq_iff.mp floor
  rw [Int.cast_natCast, le_div_iff₀ unit, div_lt_iff₀ unit] at bounds
  have power : (b : ℚ) ^ exponent b q = (b : ℚ) ^ n * (b : ℚ) ^ (exponent b q - n) := by
    rw [← zpow_natCast, ← zpow_add₀ basePos.ne', add_sub_cancel]
  have lowPower : (b : ℚ) ^ (exponent b q - 1) =
      (b : ℚ) ^ (n - 1) * (b : ℚ) ^ (exponent b q - n) := by
    rw [← zpow_natCast, ← zpow_add₀ basePos.ne', Nat.cast_sub some]
    congr 1
    push_cast
    ring
  refine ⟨m, ?_, ?_, bounds.1, bounds.2⟩
  · have leading : (b : ℚ) ^ (n - 1) < m + 1 := by
      rw [lowPower] at lo
      exact lt_of_mul_lt_mul_right (lt_of_le_of_lt lo bounds.2) unit.le
    have natural : b ^ (n - 1) ≤ m := by
      have : b ^ (n - 1) < m + 1 := by exact_mod_cast leading
      omega
    calc b ^ n = b * b ^ (n - 1) := by rw [← Nat.pow_succ', Nat.sub_one, Nat.succ_pred (by omega)]
      _ ≤ b * m := Nat.mul_le_mul_left _ natural
  · have fits : (m : ℚ) < (b : ℚ) ^ n := by
      rw [power] at hi
      exact lt_of_mul_lt_mul_right (lt_of_le_of_lt bounds.1 hi) unit.le
    exact_mod_cast fits

/-- Digits that are not kept may be dropped beforehand. -/
theorem truncateTo_truncateAt (base : 1 < b) {n : ℕ} (some : 1 ≤ n) {q : ℚ} (positive : 0 < q)
    {k : ℤ} (below : k ≤ exponent b q - n) :
    truncateTo b n (truncateAt b k q) = truncateTo b n q := by
  have basePos : (0 : ℚ) < b := by positivity
  obtain ⟨m, wide, narrow, lo, hi⟩ := exists_leading base some positive
  obtain ⟨shift, reached⟩ := Int.le.dest below
  rw [truncateTo_of_bounds base wide narrow lo hi]
  apply truncateTo_of_bounds base wide narrow
  · have multiple : (m : ℚ) * (b : ℚ) ^ (exponent b q - n) =
        ((m * b ^ shift : ℕ) : ℤ) * (b : ℚ) ^ k := by
      rw [← reached, zpow_add₀ basePos.ne', zpow_natCast]
      push_cast
      ring
    rw [multiple] at lo ⊢
    exact le_truncateAt base positive.le lo
  · exact lt_of_le_of_lt (truncateAt_le base k positive.le) hi

/-- Truncation keeps the leading digit, and with it the exponent. -/
theorem exponent_truncateTo (base : 1 < b) {n : ℕ} (some : 1 ≤ n) {q : ℚ} (nonzero : q ≠ 0) :
    truncateTo b n q ≠ 0 ∧ exponent b (truncateTo b n q) = exponent b q := by
  have basePos : (0 : ℚ) < b := by positivity
  have ofPos : ∀ q : ℚ, 0 < q →
      truncateTo b n q ≠ 0 ∧ exponent b (truncateTo b n q) = exponent b q := by
    intro q positive
    obtain ⟨m, wide, narrow, lo, hi⟩ := exists_leading base some positive
    obtain ⟨_, qHi⟩ := exponent_bounds base positive.ne'
    rw [abs_of_pos positive] at qHi
    have unit : (0 : ℚ) < (b : ℚ) ^ (exponent b q - n) := zpow_pos basePos _
    have leading : (b : ℚ) ^ n ≤ b * m := by exact_mod_cast wide
    have mPos : (0 : ℚ) < m := by
      have : (0 : ℚ) < b * m := lt_of_lt_of_le (by positivity) leading
      exact pos_of_mul_pos_right this basePos.le
    rw [truncateTo_of_bounds base wide narrow lo hi]
    refine ⟨by positivity, ?_⟩
    apply exponent_of_bounds base
    · rw [abs_of_pos (by positivity), zpow_sub_one₀ basePos.ne']
      have power : (b : ℚ) ^ exponent b q = (b : ℚ) ^ n * (b : ℚ) ^ (exponent b q - n) := by
        rw [← zpow_natCast, ← zpow_add₀ basePos.ne', add_sub_cancel]
      calc (b : ℚ) ^ exponent b q * (b : ℚ)⁻¹
          ≤ b * m * (b : ℚ) ^ (exponent b q - n) * (b : ℚ)⁻¹ := by
            rw [power]
            gcongr
        _ = m * (b : ℚ) ^ (exponent b q - n) := by field_simp
    · rw [abs_of_pos (by positivity)]
      exact lt_of_le_of_lt lo qHi
  rcases lt_or_gt_of_ne nonzero with negative | positive
  · have mirrored := ofPos (-q) (by linarith)
    rwa [truncateTo_neg, neg_ne_zero, exponent_neg, exponent_neg] at mirrored
  · exact ofPos q positive

theorem exponent_mono (base : 1 < b) {p q : ℚ} (nonzero : p ≠ 0) (smaller : |p| ≤ |q|) :
    exponent b p ≤ exponent b q :=
  le_exponent base (le_trans (exponent_bounds base nonzero).1 smaller)

/-! ## Multiples of a power -/

variable (b) in
/-- A whole number of units `b^k`. -/
def IsMultiple (k : ℤ) (q : ℚ) : Prop := ∃ j : ℤ, q = j * (b : ℚ) ^ k

namespace IsMultiple

variable {k : ℤ} {p q : ℚ}

theorem sub (first : IsMultiple b k p) (second : IsMultiple b k q) : IsMultiple b k (p - q) := by
  obtain ⟨i, rfl⟩ := first
  obtain ⟨j, rfl⟩ := second
  refine ⟨i - j, ?_⟩
  push_cast
  ring

theorem neg (multiple : IsMultiple b k q) : IsMultiple b k (-q) := by
  obtain ⟨j, rfl⟩ := multiple
  refine ⟨-j, ?_⟩
  push_cast
  ring

theorem mul_int (multiple : IsMultiple b k q) (n : ℤ) : IsMultiple b k (q * n) := by
  obtain ⟨j, rfl⟩ := multiple
  refine ⟨j * n, ?_⟩
  push_cast
  ring

theorem mono (base : 1 < b) {l : ℤ} (multiple : IsMultiple b l q) (lower : k ≤ l) :
    IsMultiple b k q := by
  obtain ⟨j, rfl⟩ := multiple
  obtain ⟨shift, rfl⟩ := Int.le.dest lower
  refine ⟨j * (b : ℤ) ^ shift, ?_⟩
  have basePos : (0 : ℚ) < b := by positivity
  rw [zpow_add₀ basePos.ne', zpow_natCast]
  push_cast
  ring

/-- A multiple other than zero is at least one unit. -/
theorem unit_le (base : 1 < b) (multiple : IsMultiple b k q) (nonzero : q ≠ 0) :
    (b : ℚ) ^ k ≤ |q| := by
  obtain ⟨j, rfl⟩ := multiple
  have unit : (0 : ℚ) < (b : ℚ) ^ k := zpow_pos (by positivity) _
  have whole : (1 : ℤ) ≤ |j| := by
    apply Int.one_le_abs
    rintro rfl
    simp at nonzero
  rw [abs_mul, abs_of_pos unit]
  have : (1 : ℚ) ≤ |(j : ℚ)| := by exact_mod_cast whole
  exact le_mul_of_one_le_left unit.le this

theorem truncateAt_eq (base : 1 < b) (multiple : IsMultiple b k q) : truncateAt b k q = q := by
  obtain ⟨j, rfl⟩ := multiple
  have kept := truncateAt_of_multiple (k := k) base j 0
  rwa [Nat.cast_zero, add_zero] at kept

/-- A multiple with at most `n` digits keeps all of them. -/
theorem truncateTo_eq (base : 1 < b) {n : ℕ} (multiple : IsMultiple b k q)
    (narrow : |q| < (b : ℚ) ^ (k + n)) : truncateTo b n q = q := by
  obtain ⟨j, rfl⟩ := multiple
  have basePos : (0 : ℚ) < b := by positivity
  have unit : (0 : ℚ) < (b : ℚ) ^ k := zpow_pos basePos _
  have few : j.natAbs < b ^ n := by
    rw [abs_mul, abs_of_pos unit, zpow_add₀ basePos.ne', mul_comm ((b : ℚ) ^ k), zpow_natCast] at narrow
    have digits := lt_of_mul_lt_mul_right narrow unit.le
    rw [← Int.cast_abs, Int.abs_eq_natAbs, Int.cast_natCast] at digits
    exact_mod_cast digits
  obtain ⟨m, rfl | rfl⟩ := Int.eq_nat_or_neg j
  · rw [Int.cast_natCast]
    exact truncateTo_of_short base few
  · rw [Int.natAbs_neg, Int.natAbs_natCast] at few
    rw [Int.cast_neg, Int.cast_natCast, neg_mul, truncateTo_neg, truncateTo_of_short base few]

end IsMultiple

theorem isMultiple_truncateAt (k : ℤ) (q : ℚ) : IsMultiple b k (truncateAt b k q) := by
  unfold truncateAt
  split
  · exact IsMultiple.neg ⟨_, rfl⟩
  · exact ⟨_, rfl⟩

theorem truncateAt_nonneg (base : 1 < b) (k : ℤ) {q : ℚ} (nonneg : 0 ≤ q) : 0 ≤ truncateAt b k q := by
  have unit : (0 : ℚ) < (b : ℚ) ^ k := zpow_pos (by positivity) _
  rw [truncateAt_of_nonneg k nonneg]
  exact mul_nonneg (by exact_mod_cast Int.floor_nonneg.mpr (div_nonneg nonneg unit.le)) unit.le

theorem truncateAt_mono (base : 1 < b) (k : ℤ) {p q : ℚ} (nonneg : 0 ≤ p) (below : p ≤ q) :
    truncateAt b k p ≤ truncateAt b k q := by
  obtain ⟨j, same⟩ := isMultiple_truncateAt (b := b) k p
  rw [same]
  apply le_truncateAt base (le_trans nonneg below)
  rw [← same]
  exact le_trans (truncateAt_le base k nonneg) below

/-- Truncation goes toward zero and does not pass it. -/
theorem truncateAt_toward (base : 1 < b) (k : ℤ) (q : ℚ) :
    (0 ≤ q → 0 ≤ truncateAt b k q ∧ truncateAt b k q ≤ q) ∧
      (q ≤ 0 → q ≤ truncateAt b k q ∧ truncateAt b k q ≤ 0) := by
  constructor
  · intro nonneg
    exact ⟨truncateAt_nonneg base k nonneg, truncateAt_le base k nonneg⟩
  · intro nonpos
    have least := truncateAt_nonneg base k (neg_nonneg.mpr nonpos)
    have most := truncateAt_le base k (neg_nonneg.mpr nonpos)
    rw [truncateAt_neg] at least most
    constructor <;> linarith

/-- Truncation is zero exactly below one unit. -/
theorem truncateAt_eq_zero_iff (base : 1 < b) (k : ℤ) (q : ℚ) :
    truncateAt b k q = 0 ↔ |q| < (b : ℚ) ^ k := by
  have ofNonneg : ∀ q : ℚ, 0 ≤ q → (truncateAt b k q = 0 ↔ q < (b : ℚ) ^ k) := by
    intro q nonneg
    constructor
    · intro zero
      have moved := abs_sub_truncateAt_lt base k q
      rwa [zero, sub_zero, abs_of_nonneg nonneg] at moved
    · intro small
      have kept := truncateAt_of_bounds (b := b) (k := k) (m := 0) base (q := q) (by simpa using nonneg)
        (by simpa using small)
      simpa using kept
  rcases le_total 0 q with nonneg | nonpos
  · rw [ofNonneg q nonneg, abs_of_nonneg nonneg]
  · have mirrored := ofNonneg (-q) (by linarith)
    rwa [truncateAt_neg, neg_eq_zero, ← abs_of_nonpos nonpos] at mirrored

/-- Digits dropped at a lower power may be dropped at a higher one at once. -/
theorem truncateAt_truncateAt (base : 1 < b) {k l : ℤ} (lower : k ≤ l) (q : ℚ) :
    truncateAt b l (truncateAt b k q) = truncateAt b l q := by
  have ofNonneg : ∀ q : ℚ, 0 ≤ q → truncateAt b l (truncateAt b k q) = truncateAt b l q := by
    intro q nonneg
    apply le_antisymm
    · exact truncateAt_mono base l (truncateAt_nonneg base k nonneg) (truncateAt_le base k nonneg)
    · obtain ⟨j, same⟩ := (isMultiple_truncateAt (b := b) l q).mono base lower
      obtain ⟨i, whole⟩ := isMultiple_truncateAt (b := b) l q
      have below : truncateAt b l q ≤ truncateAt b k q := by
        rw [same]
        apply le_truncateAt base nonneg
        rw [← same]
        exact truncateAt_le base l nonneg
      rw [whole] at below ⊢
      exact le_truncateAt base (truncateAt_nonneg base k nonneg) below
  rcases le_total 0 q with nonneg | nonpos
  · exact ofNonneg q nonneg
  · have mirrored := ofNonneg (-q) (by linarith)
    rwa [truncateAt_neg, truncateAt_neg, truncateAt_neg, neg_inj] at mirrored

/-- Moving by a multiple commutes with truncation as long as the sign stays. -/
theorem truncateAt_sub (base : 1 < b) {k : ℤ} {p q : ℚ} (pNonneg : 0 ≤ p) (qNonneg : 0 ≤ q)
    (apart : IsMultiple b k (p - q)) : truncateAt b k p - truncateAt b k q = p - q := by
  have unit : (0 : ℚ) < (b : ℚ) ^ k := zpow_pos (by positivity) _
  obtain ⟨j, same⟩ := apart
  have moved : p / (b : ℚ) ^ k = q / (b : ℚ) ^ k + j := by
    rw [← sub_eq_iff_eq_add', ← sub_div, same, mul_div_assoc, div_self unit.ne', mul_one]
  rw [truncateAt_of_nonneg k pNonneg, truncateAt_of_nonneg k qNonneg, moved, Int.floor_add_intCast, same]
  push_cast
  ring

/-- The whole part of a rational is not truncated as long as it fits. -/
theorem floor_truncateTo (base : 1 < b) {n : ℕ} {q : ℚ} (nonneg : 0 ≤ q) (fits : exponent b q ≤ n) :
    ⌊truncateTo b n q⌋ = ⌊q⌋ := by
  apply le_antisymm
  · exact Int.floor_le_floor (truncateAt_le base _ nonneg)
  · rw [Int.le_floor]
    have whole : IsMultiple b (exponent b q - n) (⌊q⌋ : ℚ) :=
      IsMultiple.mono base ⟨⌊q⌋, by simp⟩ (by omega : exponent b q - n ≤ 0)
    obtain ⟨j, same⟩ := whole
    have below := Int.floor_le q
    rw [same] at below ⊢
    exact le_truncateAt base nonneg below

end Ydb.Lib
