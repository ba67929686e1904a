import Mathlib.Algebra.Order.BigOperators.Group.Finset
import Ydb.TripleShrinking

/-!
# Shrinking reaches a layout that agrees with its own sizes

Within a pass a jump forward is sized at the distance before the pass and a jump backward at
the distance after it. Neither is larger than the distance before, so that no size grows.
-/

namespace Ydb.TripleShrinking

/-! ## Sums of sizes -/

/-- The size of the first triples together. -/
def total (size : Nat → Int) (i : Nat) : Int := ∑ k ∈ Finset.range i, size k

@[simp] theorem total_zero (size : Nat → Int) : total size 0 = 0 := rfl

theorem total_succ (size : Nat → Int) (i : Nat) : total size (i + 1) = total size i + size i :=
  Finset.sum_range_succ _ _

theorem total_congr {size size' : Nat → Int} {i : Nat} (same : ∀ k < i, size k = size' k) :
    total size i = total size' i :=
  Finset.sum_congr rfl fun k there => same k (Finset.mem_range.mp there)

/-- Between two places, smaller sizes have the smaller sum. -/
theorem total_between {size size' : Nat → Int} {i j : Nat} (ordered : i ≤ j)
    (less : ∀ k < j, size' k ≤ size k) : total size' j - total size' i ≤ total size j - total size i := by
  induction j, ordered using Nat.le_induction with
  | base => simp
  | succ j above ih =>
    have before := ih fun k inside => less k (by omega)
    have here := less j (by omega)
    rw [total_succ, total_succ]
    omega

theorem total_ordered {size : Nat → Int} {i j : Nat} (ordered : i ≤ j) (nonneg : ∀ k < j, 0 ≤ size k) :
    total size i ≤ total size j := by
  induction j, ordered using Nat.le_induction with
  | base => exact le_rfl
  | succ j above ih =>
    have before := ih fun k inside => nonneg k (by omega)
    have here := nonneg j (by omega)
    rw [total_succ]
    omega

/-- Sizes that are not larger and have the same sum are the same. -/
theorem same_of_total {size size' : Nat → Int} {j : Nat} (less : ∀ k < j, size' k ≤ size k)
    (same : total size' j = total size j) : ∀ k < j, size' k = size k := by
  induction j with
  | zero =>
    intro k inside
    omega
  | succ j ih =>
    have before := total_between (Nat.zero_le j) fun k inside => less k (by omega)
    have here := less j (by omega)
    rw [total_succ, total_succ] at same
    rw [total_zero, total_zero] at before
    intro k inside
    by_cases last : k = j
    · rw [last]
      omega
    · exact ih (fun k within => less k (by omega)) (by omega) k (by omega)

/-! ## Layouts -/

variable {gen : CodeGenerator} (chain : Chain gen)

/-- The size of a jump's code does not shrink with the distance. -/
def SizesMonotone (gen : CodeGenerator) : Prop := ∀ i, Monotone (gen.jumpSize i)

/-- The addresses are those of code of these sizes, which are large enough for the jumps. -/
structure Laid (start : Int) (l : Layout) (size : Nat → Int) : Prop where
  nonneg : ∀ i < chain.length, 0 ≤ size i
  addr : ∀ i < chain.length, l.rtaddr i = start + total size i
  code : l.code_size = start + total size chain.length + l.codegen_padlen
  enough : ∀ i < chain.length, chain.jumps i = true → trip_gen chain l.rtaddr i ≤ size i

/-- The sizes are large enough for the references to literals. -/
def LiteralsFit (size : Nat → Int) : Prop :=
  ∀ i < chain.length, chain.jumps i = false → chain.hasLiteral i = true → (gen.tripSize i : Int) ≤ size i

/-- The distance at which a pass sizes a jump, from the sizes before and after the pass. -/
def sizedDistance (size size' : Nat → Int) (i : Nat) : Nat :=
  let t := (chain.trips i).operand0.tref
  if t < i then (total size' t - total size' i).natAbs else (total size t - total size i).natAbs

/-- What a pass has done up to a place. -/
structure Passed (first_pass : Bool) (start : Int) (l : Layout) (size : Nat → Int) (i : Nat) (p : Pass)
    (size' : Nat → Int) : Prop where
  done : ∀ j < i, p.rtaddr j = start + total size' j
  todo : ∀ j, i ≤ j → p.rtaddr j = l.rtaddr j
  shrink : p.shrink = total size i - total size' i
  nonneg : ∀ j < i, 0 ≤ size' j
  less : ∀ j < i, size' j ≤ size j
  jump : ∀ j < i, chain.jumps j = true → size' j = gen.jumpSize j (sizedDistance chain size size' j)
  literal : ∀ j < i, chain.jumps j = false → (first_pass && chain.hasLiteral j) = true → size' j = gen.tripSize j
  other : ∀ j < i, chain.jumps j = false → (first_pass && chain.hasLiteral j) = false → size' j = size j

variable {chain} {first_pass : Bool} {start : Int} {l : Layout} {size size' : Nat → Int} {i : Nat} {p : Pass}

theorem sizedDistance_congr {size₁ size₂ : Nat → Int} {j : Nat} (same : ∀ k < j, size₁ k = size₂ k) :
    sizedDistance chain size size₁ j = sizedDistance chain size size₂ j := by
  simp only [sizedDistance]
  by_cases backward : (chain.trips j).operand0.tref < j
  · rw [if_pos backward, if_pos backward, total_congr same, total_congr fun k inside => same k (by omega)]
  · rw [if_neg backward, if_neg backward]

/-- A turn that takes a new size which is not larger. -/
theorem Passed.step (passed : Passed chain first_pass start l size i p size') (laid : Laid chain start l size)
    (inside : i < chain.length) {new_size : Int} (nonneg : 0 ≤ new_size) (less : new_size ≤ size i)
    (jump : chain.jumps i = true → new_size = gen.jumpSize i (sizedDistance chain size size' i))
    (literal : chain.jumps i = false → (first_pass && chain.hasLiteral i) = true → new_size = gen.tripSize i)
    (other : chain.jumps i = false → (first_pass && chain.hasLiteral i) = false → new_size = size i) :
    Passed chain first_pass start l size (i + 1)
      { p with rtaddr := moveAddr p.rtaddr i p.shrink, shrink := p.shrink + (size i - new_size) }
      (Function.update size' i new_size) := by
  have before : ∀ k < i, Function.update size' i new_size k = size' k := fun k within =>
    Function.update_of_ne (by omega) _ _
  have here : Function.update size' i new_size i = new_size := Function.update_self _ _ _
  constructor
  · intro j within
    by_cases last : j = i
    · rw [last]
      change (if i = i then p.rtaddr i - p.shrink else p.rtaddr i) = _
      rw [if_pos rfl, passed.todo i le_rfl, laid.addr i inside, passed.shrink, total_congr before]
      omega
    · change (if j = i then p.rtaddr i - p.shrink else p.rtaddr j) = _
      rw [if_neg last, passed.done j (by omega), total_congr fun k earlier => before k (by omega)]
  · intro j above
    change (if j = i then p.rtaddr i - p.shrink else p.rtaddr j) = _
    rw [if_neg (by omega), passed.todo j (by omega)]
  · change p.shrink + (size i - new_size) = _
    rw [total_succ, total_succ, here, total_congr before, passed.shrink]
    omega
  · intro j within
    by_cases last : j = i
    · rw [last, here]
      exact nonneg
    · rw [before j (by omega)]
      exact passed.nonneg j (by omega)
  · intro j within
    by_cases last : j = i
    · rw [last, here]
      exact less
    · rw [before j (by omega)]
      exact passed.less j (by omega)
  · intro j within jumps
    by_cases last : j = i
    · subst last
      rw [here, sizedDistance_congr before, jump jumps]
    · rw [before j (by omega), sizedDistance_congr fun k earlier => before k (by omega)]
      exact passed.jump j (by omega) jumps
  · intro j within jumps refers
    by_cases last : j = i
    · subst last
      rw [here, literal jumps refers]
    · rw [before j (by omega)]
      exact passed.literal j (by omega) jumps refers
  · intro j within jumps refers
    by_cases last : j = i
    · subst last
      rw [here, other jumps refers]
    · rw [before j (by omega)]
      exact passed.other j (by omega) jumps refers

/-! ## A turn -/

/-- The last triple of the chain is not resized. -/
theorem not_last (inside : i < chain.length) (resized : chain.jumps i = true ∨ chain.hasLiteral i = true) :
    i + 1 < chain.length := by
  by_contra behind
  obtain ⟨noJump, skipped⟩ := chain.ends i (by omega)
  rcases resized with jumps | refers
  · rw [Chain.jumps, noJump] at jumps
    contradiction
  · rw [Chain.hasLiteral, skipped] at refers
    contradiction

theorem Passed.old_size (passed : Passed chain first_pass start l size i p size') (laid : Laid chain start l size)
    (inside : i + 1 < chain.length) : p.rtaddr (i + 1) - p.rtaddr i = size i := by
  rw [passed.todo _ le_rfl, passed.todo _ (by omega), laid.addr _ inside, laid.addr _ (by omega), total_succ]
  omega

/-- The size that a turn gives a jump, and the distance that it belongs to. -/
theorem Passed.jump_size (passed : Passed chain first_pass start l size i p size') (laid : Laid chain start l size)
    (inside : i < chain.length) (jumps : chain.jumps i = true) :
    (if p.rtaddr (chain.trips i).operand0.tref - p.rtaddr i < 0 then
        trip_gen chain (moveAddr p.rtaddr i p.shrink) i
      else trip_gen chain p.rtaddr i) = gen.jumpSize i (sizedDistance chain size size' i) := by
  have target := chain.targets i inside jumps
  have here : p.rtaddr i = start + total size i := by rw [passed.todo i le_rfl, laid.addr i inside]
  simp only [trip_gen, jumps, if_true, sizedDistance]
  by_cases backward : (chain.trips i).operand0.tref < i
  · have there := passed.done _ backward
    have moved : moveAddr p.rtaddr i p.shrink i = start + total size' i := by
      change (if i = i then p.rtaddr i - p.shrink else p.rtaddr i) = _
      rw [if_pos rfl, here, passed.shrink]
      omega
    have still : moveAddr p.rtaddr i p.shrink (chain.trips i).operand0.tref =
        start + total size' (chain.trips i).operand0.tref := by
      change (if (chain.trips i).operand0.tref = i then _ else p.rtaddr _) = _
      rw [if_neg (by omega), there]
    rw [moved, still, if_pos backward, there, here]
    have ordered := total_ordered (Nat.le_of_lt backward) passed.nonneg
    by_cases before : start + total size' (chain.trips i).operand0.tref - (start + total size i) < 0
    · rw [if_pos before]
      congr 2
      omega
    · -- the target is as far as the jump, so that nothing was taken off before it
      have same := total_between (Nat.zero_le i) passed.less
      rw [total_zero, total_zero] at same
      rw [if_neg before]
      congr 2
      omega
  · have there : p.rtaddr (chain.trips i).operand0.tref = start + total size (chain.trips i).operand0.tref := by
      rw [passed.todo _ (by omega), laid.addr _ target]
    have ordered : total size i ≤ total size (chain.trips i).operand0.tref :=
      total_ordered (Nat.not_lt.mp backward) fun k within => laid.nonneg k (by omega)
    rw [there, here, if_neg backward, if_neg (by omega)]
    congr 2
    omega

/-- Neither distance is larger than the one before the pass. -/
theorem Passed.jump_less (passed : Passed chain first_pass start l size i p size') (laid : Laid chain start l size)
    (monotone : SizesMonotone gen) (inside : i < chain.length) (jumps : chain.jumps i = true) :
    (gen.jumpSize i (sizedDistance chain size size' i) : Int) ≤ size i := by
  have target := chain.targets i inside jumps
  have enough := laid.enough i inside jumps
  have shorter : sizedDistance chain size size' i ≤
      (l.rtaddr (chain.trips i).operand0.tref - l.rtaddr i).natAbs := by
    rw [laid.addr _ target, laid.addr _ inside, sizedDistance]
    by_cases backward : (chain.trips i).operand0.tref < i
    · have between := total_between (Nat.le_of_lt backward) passed.less
      have ordered := total_ordered (Nat.le_of_lt backward) passed.nonneg
      rw [if_pos backward]
      omega
    · rw [if_neg backward]
      omega
  have less : gen.jumpSize i (sizedDistance chain size size' i) ≤ _ := monotone i shorter
  rw [trip_gen, if_pos jumps] at enough
  omega

theorem resize_passed (passed : Passed chain first_pass start l size i p size') (laid : Laid chain start l size)
    (monotone : SizesMonotone gen) (fits : first_pass = true → LiteralsFit chain size) (inside : i < chain.length) :
    ∃ p₁ size₁, resize chain first_pass i p = some p₁ ∧ Passed chain first_pass start l size (i + 1) p₁ size₁ := by
  have unjump : ∀ {b : Bool} {P : Prop}, b = true → b = false → P := by
    intro b P yes no
    rw [yes] at no
    contradiction
  simp only [resize]
  cases jumps : chain.jumps i with
  | true =>
    have old := passed.old_size laid (not_last inside (.inl jumps))
    have value := passed.jump_size laid inside jumps
    have less := passed.jump_less laid monotone inside jumps
    rw [if_pos rfl, value, old, if_pos less]
    exact ⟨_, _, rfl, passed.step laid inside (Int.natCast_nonneg _) less (fun _ => rfl)
      (fun no => unjump jumps no) fun no => unjump jumps no⟩
  | false =>
    rw [if_neg (by simp)]
    cases refers : first_pass && chain.hasLiteral i with
    | true =>
      obtain ⟨first, literal⟩ := Bool.and_eq_true_iff.mp refers
      have old := passed.old_size laid (not_last inside (.inr literal))
      have value : trip_gen chain p.rtaddr i = gen.tripSize i := by rw [trip_gen, jumps]; rfl
      have less := fits first i inside jumps literal
      rw [if_pos rfl, value, old, if_pos less]
      exact ⟨_, _, rfl, passed.step laid inside (Int.natCast_nonneg _) less (fun yes => unjump yes jumps)
        (fun _ _ => rfl) fun _ no => unjump refers no⟩
    | false =>
      rw [if_neg (by simp)]
      have kept := passed.step laid inside (laid.nonneg i inside) le_rfl (fun yes => unjump yes jumps)
        (fun _ yes => unjump yes refers) fun _ _ => rfl
      rw [Int.sub_self, Int.add_zero] at kept
      exact ⟨_, _, rfl, kept⟩

/-- Recording a size leaves the addresses. -/
theorem Passed.record (passed : Passed chain first_pass start l size i p size') (k : Nat) :
    Passed chain first_pass start l size i (recordSize chain k p) size' := by
  rw [recordSize]
  split
  · exact ⟨passed.done, passed.todo, passed.shrink, passed.nonneg, passed.less, passed.jump, passed.literal,
      passed.other⟩
  · exact passed

/-! ## A pass -/

theorem passUpTo_passed (laid : Laid chain start l size) (monotone : SizesMonotone gen)
    (fits : first_pass = true → LiteralsFit chain size) (inside : i ≤ chain.length) :
    ∃ p size', passUpTo chain first_pass ⟨l.rtaddr, l.tsize, 0⟩ i = some p ∧
      Passed chain first_pass start l size i p size' := by
  induction i with
  | zero =>
    refine ⟨_, size, rfl, ⟨?_, fun j _ => rfl, by simp, ?_, ?_, ?_, ?_, ?_⟩⟩
    all_goals
      intro j within
      omega
  | succ i ih =>
    obtain ⟨p, size', run, passed⟩ := ih (by omega)
    obtain ⟨p₁, size₁, turn, next⟩ := resize_passed passed laid monotone fits (by omega)
    refine ⟨recordSize chain i p₁, size₁, ?_, next.record i⟩
    rw [passUpTo, run]
    change (resize chain first_pass i p).bind _ = _
    rw [turn]
    rfl

variable (chain) in
/-- The sizes after a pass. -/
structure Shrunk (first_pass : Bool) (size size' : Nat → Int) : Prop where
  less : ∀ i < chain.length, size' i ≤ size i
  jump : ∀ i < chain.length, chain.jumps i = true → size' i = gen.jumpSize i (sizedDistance chain size size' i)
  other : ∀ i < chain.length, chain.jumps i = false →
    size' i = if first_pass && chain.hasLiteral i then (gen.tripSize i : Int) else size i

/-- One pass over the triples. -/
theorem shrinkPass_laid (laid : Laid chain start l size) (monotone : SizesMonotone gen)
    (fits : first_pass = true → LiteralsFit chain size) :
    ∃ l' shrink size', shrinkPass chain first_pass l = some (l', shrink) ∧ Laid chain start l' size' ∧
      Shrunk chain first_pass size size' ∧ l'.codegen_padlen = l.codegen_padlen ∧
      shrink = total size chain.length - total size' chain.length := by
  obtain ⟨p, size', run, passed⟩ := passUpTo_passed laid monotone fits le_rfl
  refine ⟨⟨p.rtaddr, p.tsize, l.code_size - p.shrink, l.codegen_padlen⟩, p.shrink, size', ?_, ?_, ?_, rfl,
    passed.shrink⟩
  · rw [shrinkPass, run]
    rfl
  · refine ⟨passed.nonneg, passed.done, ?_, ?_⟩
    · change l.code_size - p.shrink = start + total size' chain.length + l.codegen_padlen
      rw [laid.code, passed.shrink]
      omega
    · intro i inside jumps
      have target := chain.targets i inside jumps
      rw [passed.jump i inside jumps, trip_gen, if_pos jumps]
      apply Int.ofNat_le.mpr
      apply monotone i
      change (p.rtaddr _ - p.rtaddr _).natAbs ≤ _
      rw [passed.done _ target, passed.done _ inside, sizedDistance]
      by_cases backward : (chain.trips i).operand0.tref < i
      · rw [if_pos backward]
        omega
      · have between := total_between (Nat.not_lt.mp backward) fun k within => passed.less k (by omega)
        have ordered := total_ordered (Nat.not_lt.mp backward) fun k within => passed.nonneg k (by omega)
        rw [if_neg backward]
        omega
  · refine ⟨passed.less, passed.jump, fun i inside noJump => ?_⟩
    split
    · exact passed.literal i inside noJump ‹_›
    · exact passed.other i inside noJump (Bool.eq_false_iff.mpr ‹_›)

/-! ## The recorded sizes of calls -/

theorem taken_rest {p₁ : Pass} {rtaddr : Nat → Int} {old_size new_size : Int}
    (taken : (if old_size ≥ new_size then
      some { p with rtaddr := rtaddr, shrink := p.shrink + (old_size - new_size) } else none) = some p₁) :
    p.shrink ≤ p₁.shrink ∧ p₁.tsize = p.tsize ∧ p₁.rtaddr = rtaddr := by
  by_cases less : old_size ≥ new_size
  · rw [if_pos less] at taken
    cases taken
    refine ⟨?_, rfl, rfl⟩
    change p.shrink ≤ p.shrink + (old_size - new_size)
    omega
  · rw [if_neg less] at taken
    contradiction

/-- What a turn does to the rest of the state. -/
theorem resize_rest {p₁ : Pass} (turn : resize chain first_pass i p = some p₁) :
    p.shrink ≤ p₁.shrink ∧ p₁.tsize = p.tsize ∧ p₁.rtaddr = moveAddr p.rtaddr i p.shrink := by
  cases jumps : chain.jumps i with
  | true =>
    simp only [resize, jumps, if_true] at turn
    exact taken_rest turn
  | false =>
    cases refers : first_pass && chain.hasLiteral i with
    | true =>
      simp only [resize, jumps, refers, if_true, Bool.false_eq_true, if_false] at turn
      exact taken_rest turn
    | false =>
      simp only [resize, jumps, refers, Bool.false_eq_true, if_false] at turn
      cases turn
      exact ⟨le_rfl, rfl, rfl⟩

variable (chain) in
theorem recordSize_rest (k : Nat) (p : Pass) :
    (recordSize chain k p).shrink = p.shrink ∧ (recordSize chain k p).rtaddr = p.rtaddr := by
  rw [recordSize]
  split <;> exact ⟨rfl, rfl⟩

theorem moveAddr_none (rtaddr : Nat → Int) (i : Nat) : moveAddr rtaddr i 0 = rtaddr := by
  funext j
  rw [moveAddr]
  split
  · rw [Int.sub_zero, ‹j = i›]
  · rfl

/-- A pass that takes nothing off moves nothing, and records the sizes of all calls at these addresses. -/
theorem passUpTo_still (run : passUpTo chain first_pass ⟨l.rtaddr, l.tsize, 0⟩ i = some p) :
    0 ≤ p.shrink ∧ (p.shrink = 0 → p.rtaddr = l.rtaddr ∧
      ∀ j < i, (chain.trips j).opcode = .OC_TRIPSIZE →
        p.tsize j = trip_gen chain l.rtaddr (chain.trips j).operand0.tref) := by
  induction i generalizing p with
  | zero =>
    cases Option.some.inj run
    refine ⟨le_rfl, fun _ => ⟨rfl, fun j within => ?_⟩⟩
    omega
  | succ i ih =>
    rw [passUpTo] at run
    obtain ⟨before, earlier, rest⟩ := Option.bind_eq_some_iff.mp run
    obtain ⟨after, turn, last⟩ := Option.bind_eq_some_iff.mp rest
    cases Option.some.inj last
    obtain ⟨nonneg, still⟩ := ih earlier
    obtain ⟨grows, sizes, moved⟩ := resize_rest turn
    obtain ⟨sameShrink, sameAddr⟩ := recordSize_rest chain i after
    rw [sameShrink, sameAddr]
    refine ⟨by omega, fun none => ?_⟩
    have noneBefore : before.shrink = 0 := by omega
    obtain ⟨unmoved, recorded⟩ := still noneBefore
    have addr : after.rtaddr = l.rtaddr := by rw [moved, noneBefore, moveAddr_none, unmoved]
    refine ⟨addr, fun j within call => ?_⟩
    rw [recordSize]
    by_cases here : j = i
    · subst here
      rw [if_pos ⟨none.symm, call⟩]
      change (if j = j then trip_gen chain after.rtaddr _ else _) = _
      rw [if_pos rfl, addr]
    · have old := recorded j (by omega) call
      split
      · change (if j = i then _ else after.tsize j) = _
        rw [if_neg here, sizes, old]
      · rw [sizes, old]

theorem shrinkPass_still {l' : Layout} (run : shrinkPass chain first_pass l = some (l', 0)) :
    ∀ j < chain.length, (chain.trips j).opcode = .OC_TRIPSIZE →
      l'.tsize j = trip_gen chain l'.rtaddr (chain.trips j).operand0.tref := by
  obtain ⟨p, passes, result⟩ := Option.map_eq_some_iff.mp run
  obtain ⟨-, still⟩ := passUpTo_still passes
  have none : p.shrink = 0 := congrArg Prod.snd result
  have layout : (⟨p.rtaddr, p.tsize, l.code_size - p.shrink, l.codegen_padlen⟩ : Layout) = l' :=
    congrArg Prod.fst result
  obtain ⟨addr, recorded⟩ := still none
  intro j inside call
  rw [← layout]
  change p.tsize j = trip_gen chain p.rtaddr _
  rw [recorded j inside call, addr]

/-! ## The loop -/

variable (chain) in
/-- The layout agrees with its sizes. -/
structure Settled (start : Int) (l : Layout) (size : Nat → Int) : Prop where
  laid : Laid chain start l size
  exact : ∀ i < chain.length, chain.jumps i = true → trip_gen chain l.rtaddr i = size i
  recorded : ∀ i < chain.length, (chain.trips i).opcode = .OC_TRIPSIZE →
    l.tsize i = trip_gen chain l.rtaddr (chain.trips i).operand0.tref

/-- Passes stop, and the layout they stop at is settled. -/
theorem shrinkLoop_settles (laid : Laid chain start l size) (monotone : SizesMonotone gen)
    (fits : first_pass = true → LiteralsFit chain size) (passes : Nat)
    (enough : total size chain.length < passes) :
    ∃ l' size', shrinkLoop chain first_pass l passes = some l' ∧ Settled chain start l' size' ∧
      l'.codegen_padlen = l.codegen_padlen ∧ (∀ i < chain.length, size' i ≤ size i) ∧
      ∀ i < chain.length, chain.jumps i = false →
        size' i = if first_pass && chain.hasLiteral i then (gen.tripSize i : Int) else size i := by
  induction passes generalizing first_pass l size with
  | zero =>
    have ordered := total_ordered (Nat.zero_le _) laid.nonneg
    rw [total_zero] at ordered
    omega
  | succ passes ih =>
    obtain ⟨l₁, shrink, size₁, run, laid₁, shrunk, padlen, amount⟩ := shrinkPass_laid laid monotone fits
    have less := total_between (Nat.zero_le chain.length) shrunk.less
    rw [total_zero, total_zero] at less
    rw [shrinkLoop, run]
    change ∃ l' size', (if 0 ≠ shrink then shrinkLoop chain false l₁ passes else some l₁) = some l' ∧ _
    by_cases stops : shrink = 0
    · subst stops
      have same := same_of_total shrunk.less (by omega)
      refine ⟨l₁, size₁, if_neg fun no => no rfl, ⟨laid₁, ?_, shrinkPass_still run⟩, padlen, shrunk.less,
        shrunk.other⟩
      intro i inside jumps
      have target := chain.targets i inside jumps
      rw [shrunk.jump i inside jumps, trip_gen, if_pos jumps, laid₁.addr _ target, laid₁.addr _ inside,
        sizedDistance]
      rw [total_congr fun k earlier => (same k (by omega)).symm,
        total_congr fun k earlier => (same k (by omega)).symm, ite_self]
      congr 2
      omega
    · obtain ⟨l', size', rest, settled, padlen', less', other'⟩ :=
        ih laid₁ (fun no => absurd no Bool.false_ne_true) (by omega)
      refine ⟨l', size', by rw [if_pos (fun same => stops same.symm)]; exact rest, settled,
        padlen'.trans padlen, fun i inside => (less' i inside).trans (shrunk.less i inside), ?_⟩
      intro i inside noJump
      rw [other' i inside noJump, Bool.false_and, if_neg Bool.false_ne_true]
      exact shrunk.other i inside noJump

/-! ## Shrinking -/

variable (chain)

/-- The size of a triple at the end: that of the code that is generated for it where it is generated again. -/
def finalSize (l : Layout) (size : Nat → Int) (i : Nat) : Int :=
  if chain.jumps i || chain.hasLiteral i then trip_gen chain l.rtaddr i else size i

/-- The layout after so many passes, whether they take anything off or not. -/
def layoutAfter (l : Layout) : Nat → Option Layout
  | 0 => some l
  | k + 1 => (layoutAfter l k).bind fun l => (shrinkPass chain (decide (k = 0)) l).map Prod.fst

variable {chain}

theorem layoutAfter_laid (laid : Laid chain start l size) (monotone : SizesMonotone gen)
    (fits : LiteralsFit chain size) (k : Nat) :
    ∃ l₁ size₁, layoutAfter chain l k = some l₁ ∧ Laid chain start l₁ size₁ ∧
      (k = 0 → LiteralsFit chain size₁) := by
  induction k with
  | zero => exact ⟨l, size, rfl, laid, fun _ => fits⟩
  | succ k ih =>
    obtain ⟨l₁, size₁, run, laid₁, fits₁⟩ := ih
    obtain ⟨l₂, shrink, size₂, pass, laid₂, -, -, -⟩ :=
      shrinkPass_laid laid₁ monotone fun first : decide (k = 0) = true => fits₁ (of_decide_eq_true first)
    refine ⟨l₂, size₂, ?_, laid₂, fun no => by omega⟩
    rw [layoutAfter, run, Option.bind_some, pass]
    rfl

/-- Every pass goes through, and leaves no triple larger than it was. -/
theorem layoutAfter_shrinks (laid : Laid chain start l size) (monotone : SizesMonotone gen)
    (fits : LiteralsFit chain size) (k : Nat) :
    ∃ l₁ l₂, layoutAfter chain l k = some l₁ ∧ layoutAfter chain l (k + 1) = some l₂ ∧
      ∀ i, i + 1 < chain.length → l₂.rtaddr (i + 1) - l₂.rtaddr i ≤ l₁.rtaddr (i + 1) - l₁.rtaddr i := by
  obtain ⟨l₁, size₁, run, laid₁, fits₁⟩ := layoutAfter_laid laid monotone fits k
  obtain ⟨l₂, shrink, size₂, pass, laid₂, shrunk, -, -⟩ :=
    shrinkPass_laid laid₁ monotone fun first : decide (k = 0) = true => fits₁ (of_decide_eq_true first)
  refine ⟨l₁, l₂, run, ?_, fun i inside => ?_⟩
  · rw [layoutAfter, run, Option.bind_some, pass]
    rfl
  · have less := shrunk.less i (by omega)
    rw [laid₁.addr _ inside, laid₁.addr i (by omega), laid₂.addr _ inside, laid₂.addr i (by omega), total_succ,
      total_succ]
    omega

/-- **Shrinking stops at a layout that agrees with its own sizes.** Every pass goes through and leaves no
triple larger; after as many passes as there are bytes, and one more, there is a layout in which every address
is the sum of the final sizes before it, jumps and references to literals have the size of the code that is
generated for them there, the recorded sizes of calls are right, and the code is padded. -/
theorem shrink_trips_settles (chain : Chain gen) (start : Int) (l : Layout) (size : Nat → Int)
    (monotone : SizesMonotone gen) (laid : Laid chain start l size) (fits : LiteralsFit chain size) :
    (∀ k, ∃ l₁ l₂, layoutAfter chain l k = some l₁ ∧ layoutAfter chain l (k + 1) = some l₂ ∧
      ∀ i, i + 1 < chain.length → l₂.rtaddr (i + 1) - l₂.rtaddr i ≤ l₁.rtaddr (i + 1) - l₁.rtaddr i) ∧
    ∀ passes : Nat, total size chain.length < passes →
      ∃ l', shrink_trips chain l passes = some l' ∧
        (∀ i < chain.length, finalSize chain l' size i ≤ size i) ∧
        (∀ i < chain.length, l'.rtaddr i = start + total (finalSize chain l' size) i) ∧
        (∀ i < chain.length, (chain.trips i).opcode = .OC_TRIPSIZE →
          l'.tsize i = trip_gen chain l'.rtaddr (chain.trips i).operand0.tref) ∧
        l'.codegen_padlen =
          PADLEN (start + total (finalSize chain l' size) chain.length) SECTION_ALIGN_BOUNDARY ∧
        l'.code_size = start + total (finalSize chain l' size) chain.length + l'.codegen_padlen := by
  refine ⟨layoutAfter_shrinks laid monotone fits, fun passes enough => ?_⟩
  obtain ⟨l₁, size₁, run, settled, -, less, other⟩ :=
    shrinkLoop_settles laid monotone (fun _ => fits) passes enough
  have final : ∀ i < chain.length, finalSize chain l₁ size i = size₁ i := by
    intro i inside
    rw [finalSize]
    cases jumps : chain.jumps i with
    | true => exact settled.exact i inside jumps
    | false =>
      have kept := other i inside jumps
      rw [Bool.true_and] at kept
      cases refers : chain.hasLiteral i with
      | true =>
        rw [refers, if_pos rfl] at kept
        rw [kept, Bool.or_true, if_pos rfl, trip_gen, jumps]
        rfl
      | false =>
        rw [refers, if_neg Bool.false_ne_true] at kept
        rw [kept, Bool.or_false, if_neg Bool.false_ne_true]
  have sums : ∀ i ≤ chain.length, total (finalSize chain l₁ size) i = total size₁ i := fun i inside =>
    total_congr fun k earlier => final k (by omega)
  have code : l₁.code_size - l₁.codegen_padlen = start + total size₁ chain.length := by
    rw [settled.laid.code]
    omega
  refine ⟨{ l₁ with
      code_size := l₁.code_size - l₁.codegen_padlen +
        PADLEN (l₁.code_size - l₁.codegen_padlen) SECTION_ALIGN_BOUNDARY
      codegen_padlen := PADLEN (l₁.code_size - l₁.codegen_padlen) SECTION_ALIGN_BOUNDARY }, ?_, ?_, ?_, ?_, ?_, ?_⟩
  · rw [shrink_trips, run]
    rfl
  · intro i inside
    change finalSize chain l₁ size i ≤ size i
    rw [final i inside]
    exact less i inside
  · intro i inside
    change l₁.rtaddr i = start + total (finalSize chain l₁ size) i
    rw [sums i (by omega)]
    exact settled.laid.addr i inside
  · exact settled.recorded
  · change PADLEN _ _ = PADLEN (start + total (finalSize chain l₁ size) chain.length) _
    rw [sums _ le_rfl, code]
  · change l₁.code_size - l₁.codegen_padlen + _ = start + total (finalSize chain l₁ size) chain.length + _
    rw [sums _ le_rfl, code]

/-! ## A chain of a jump over a literal -/

/-- Jumps take two bytes within reach of a byte, else five. -/
def shortJumps : CodeGenerator where
  oc_tab op := ⟨op = .other 0, op = .OC_NOOP ∨ op = .OC_LIT⟩
  jumpSize _ distance := if distance < 128 then 2 else 5
  tripSize _ := 3

/-- Jumps over a literal. -/
def jumpOverLiteral : Chain shortJumps where
  trips i := [⟨.other 0, .TJMP_REF 2, .other⟩, ⟨.other 1, .TRIP_REF 3, .other⟩, ⟨.other 0, .TJMP_REF 0, .other⟩,
    ⟨.OC_LIT, .other, .other⟩, ⟨.OC_NOOP, .other, .other⟩].getD i ⟨.OC_NOOP, .other, .other⟩
  length := 5
  targets := by decide
  ends i last := by
    have here : i = 4 := by omega
    subst here
    decide

/-- Sizes that the jumps settle at. -/
def jumpSizes (i : Nat) : Int := [5, 7, 5, 0, 0].getD i 0

/-- The layout with these sizes. -/
def jumpLayout : Layout := ⟨fun i => 16 + total jumpSizes i, fun _ => 0, 48, 15⟩

/-- The jumps shrink from five bytes to two and the reference from seven to three. -/
theorem shrink_trips_settles_jumps :
    (∀ k, ∃ l₁ l₂, layoutAfter jumpOverLiteral jumpLayout k = some l₁ ∧
      layoutAfter jumpOverLiteral jumpLayout (k + 1) = some l₂ ∧ ∀ i, i + 1 < 5 →
        l₂.rtaddr (i + 1) - l₂.rtaddr i ≤ l₁.rtaddr (i + 1) - l₁.rtaddr i) ∧
    ∃ l', shrink_trips jumpOverLiteral jumpLayout 18 = some l' ∧
      (∀ i < 5, finalSize jumpOverLiteral l' jumpSizes i ≤ jumpSizes i) ∧
      (∀ i < 5, l'.rtaddr i = 16 + total (finalSize jumpOverLiteral l' jumpSizes) i) ∧
      (∀ i < 5, (jumpOverLiteral.trips i).opcode = .OC_TRIPSIZE →
        l'.tsize i = trip_gen jumpOverLiteral l'.rtaddr (jumpOverLiteral.trips i).operand0.tref) ∧
      l'.codegen_padlen =
        PADLEN (16 + total (finalSize jumpOverLiteral l' jumpSizes) 5) SECTION_ALIGN_BOUNDARY ∧
      l'.code_size = 16 + total (finalSize jumpOverLiteral l' jumpSizes) 5 + l'.codegen_padlen := by
  have monotone : SizesMonotone shortJumps := by
    intro i near far less
    change (if near < 128 then 2 else 5) ≤ (if far < 128 then 2 else 5)
    split <;> split <;> omega
  have sum : total jumpSizes 5 = 17 := by decide
  have laid : Laid jumpOverLiteral 16 jumpLayout jumpSizes := by
    refine ⟨by decide, fun i _ => rfl, ?_, by decide⟩
    change (48 : Int) = 16 + total jumpSizes 5 + 15
    rw [sum]
    rfl
  have fits : LiteralsFit jumpOverLiteral jumpSizes := by
    unfold LiteralsFit
    decide
  obtain ⟨shrinks, settles⟩ :=
    shrink_trips_settles jumpOverLiteral 16 jumpLayout jumpSizes monotone laid fits
  refine ⟨shrinks, settles 18 ?_⟩
  change total jumpSizes 5 < _
  rw [sum]
  decide

end Ydb.TripleShrinking
