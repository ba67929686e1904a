import Mathlib.Data.List.Basic

/-!
# Absorbing a sequence in blocks

A sequence is cut into blocks of one size and each complete block changes a state. What
does not fill a block is kept. Feeding a sequence piece by piece, each piece behind what
was kept of the others, comes to the same.
-/

namespace Ydb.Lib

universe u v
variable {σ : Type u} {β : Type v} (step : σ → List β → σ) (size : Nat)

/-- The state after all complete blocks, and the remainder. -/
def absorbBlocks (state : σ) (input : List β) : σ × List β :=
  if 0 < size ∧ size ≤ input.length then
    absorbBlocks (step state (input.take size)) (input.drop size)
  else (state, input)
termination_by input.length
decreasing_by
  rw [List.length_drop]
  omega

variable {step size}

theorem absorbBlocks_short {input : List β} (short : input.length < size) (state : σ) :
    absorbBlocks step size state input = (state, input) := by
  rw [absorbBlocks, if_neg (by omega)]

theorem absorbBlocks_block {block : List β} (positive : 0 < size) (full : block.length = size)
    (state : σ) (rest : List β) :
    absorbBlocks step size state (block ++ rest) = absorbBlocks step size (step state block) rest := by
  have enough : 0 < size ∧ size ≤ (block ++ rest).length := by
    rw [List.length_append]
    omega
  rw [absorbBlocks, if_pos enough, List.take_left' full, List.drop_left' full]

/-- A remainder does not fill a block. -/
theorem absorbBlocks_rest_lt (positive : 0 < size) (state : σ) (input : List β) :
    (absorbBlocks step size state input).2.length < size := by
  induction state, input using absorbBlocks.induct step size with
  | case1 state input more ih =>
    rw [absorbBlocks, if_pos more]
    exact ih
  | case2 state input stop =>
    rw [absorbBlocks, if_neg stop]
    dsimp only
    omega

/-- A further piece is absorbed behind the remainder. -/
theorem absorbBlocks_append (state : σ) (input more : List β) :
    absorbBlocks step size state (input ++ more) =
      absorbBlocks step size (absorbBlocks step size state input).1
        ((absorbBlocks step size state input).2 ++ more) := by
  induction state, input using absorbBlocks.induct step size with
  | case1 state input full ih =>
    have cut : input ++ more = input.take size ++ (input.drop size ++ more) := by
      rw [← List.append_assoc, List.take_append_drop]
    have length : (input.take size).length = size := by
      rw [List.length_take]
      omega
    have first : absorbBlocks step size state input =
        absorbBlocks step size (step state (input.take size)) (input.drop size) := by
      rw [absorbBlocks, if_pos full]
    rw [cut, absorbBlocks_block full.1 length, ih, first]
  | case2 state input stop =>
    have short : absorbBlocks step size state input = (state, input) := by
      rw [absorbBlocks, if_neg stop]
    rw [short]

/-- The blocks by their positions. -/
theorem absorbBlocks_eq_foldl (positive : 0 < size) (state : σ) (input : List β) :
    absorbBlocks step size state input =
      ((List.range (input.length / size)).foldl
          (fun state i => step state ((input.drop (size * i)).take size)) state,
        input.drop (size * (input.length / size))) := by
  induction state, input using absorbBlocks.induct step size with
  | case1 state input more ih =>
    have count : input.length / size = (input.drop size).length / size + 1 := by
      rw [List.length_drop, ← Nat.add_div_right _ positive, Nat.sub_add_cancel more.2]
    rw [absorbBlocks, if_pos more, ih, count, List.range_succ_eq_map, List.foldl_cons,
      List.foldl_map, Nat.mul_zero, List.drop_zero, List.drop_drop, Nat.mul_succ, Nat.add_comm size]
    congr 2
    funext state i
    rw [List.drop_drop, Nat.succ_eq_add_one, Nat.mul_succ, Nat.add_comm size]
  | case2 state input stop =>
    have none : input.length / size = 0 := Nat.div_eq_of_lt (by omega)
    rw [absorbBlocks, if_neg stop, none]
    rfl

end Ydb.Lib
