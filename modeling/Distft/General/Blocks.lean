import Mathlib.Data.Nat.Init
import Mathlib.Order.Nat

/-!
# Cutting a sequence into blocks

The blocks in which a reader gets a sequence that reads up to `m` elements at a time until it gets
fewer: all blocks but the last have `m` elements, and the last has fewer, possibly none.
-/

namespace Distft.Blocks

variable {α : Type*} {m : ℕ}

/-- The blocks of a sequence. -/
def blocks (m : ℕ) (l : List α) : List (List α) :=
  (List.range (l.length / m + 1)).map fun i => (l.drop (i * m)).take m

/-- No block is longer than `m`. -/
theorem length_le_of_mem_blocks {l block : List α} (h : block ∈ blocks m l) : block.length ≤ m := by
  obtain ⟨i, -, rfl⟩ := List.mem_map.1 h
  exact List.length_take_le m _

/-- A sequence that is shorter than a block. -/
theorem blocks_of_lt {l : List α} (h : l.length < m) : blocks m l = [l] := by
  unfold blocks
  rw [Nat.div_eq_of_lt h]
  simp [List.take_of_length_le h.le]

/-- A sequence that is not. -/
theorem blocks_of_le {l : List α} (hm : 0 < m) (h : m ≤ l.length) :
    blocks m l = l.take m :: blocks m (l.drop m) := by
  have hdiv : l.length / m = (l.drop m).length / m + 1 := by
    rw [List.length_drop, Nat.div_eq_sub_div hm h]
  unfold blocks
  rw [hdiv, List.range_succ_eq_map, List.map_cons, List.map_map, Nat.zero_mul, List.drop_zero]
  refine congrArg (List.cons _) ?_
  apply List.map_congr_left
  intro i _
  simp only [Function.comp_apply, List.drop_drop, Nat.succ_mul, Nat.add_comm]

/-- The blocks make up the sequence. -/
theorem flatten_blocks (hm : 0 < m) (l : List α) : (blocks m l).flatten = l := by
  induction hlen : l.length using Nat.strong_induction_on generalizing l with
  | _ n ih =>
    by_cases hlt : l.length < m
    · rw [blocks_of_lt hlt, List.flatten_singleton]
    · have hle := Nat.le_of_not_lt hlt
      have hdrop : (l.drop m).length < n := by
        rw [List.length_drop]
        omega
      rw [blocks_of_le hm hle, List.flatten_cons, ih _ hdrop _ rfl, List.take_append_drop]

end Distft.Blocks
