import Mathlib.Algebra.BigOperators.Group.Finset.Basic
import Mathlib.Algebra.BigOperators.Ring.Finset
import Mathlib.Data.Fintype.Basic

/- A sequence that several sources have made together: each piece stands with its source. -/
namespace Merge

variable {ι α : Type} [DecidableEq ι]

/-- All pieces, in their order. -/
def whole (pieces : List (ι × List α)) : List α := (pieces.map Prod.snd).flatten

/-- The pieces of one source, in their order. -/
def part (source : ι) (pieces : List (ι × List α)) : List α :=
  ((pieces.filter fun piece => piece.1 = source).map Prod.snd).flatten

omit [DecidableEq ι] in
theorem whole_append (pieces more : List (ι × List α)) :
    whole (pieces ++ more) = whole pieces ++ whole more := by
  simp only [whole, List.map_append, List.flatten_append]

omit [DecidableEq ι] in
theorem whole_singleton (piece : ι × List α) : whole [piece] = piece.2 := by
  simp only [whole, List.map_singleton, List.flatten_singleton]

theorem part_append (source : ι) (pieces more : List (ι × List α)) :
    part source (pieces ++ more) = part source pieces ++ part source more := by
  simp only [part, List.filter_append, List.map_append, List.flatten_append]

theorem part_singleton (source : ι) (piece : ι × List α) :
    part source [piece] = if piece.1 = source then piece.2 else [] := by
  by_cases own : piece.1 = source <;> simp [part, own]

/-- No source has anything that is not its own. -/
theorem length_whole [Fintype ι] (pieces : List (ι × List α)) :
    (whole pieces).length = ∑ source, (part source pieces).length := by
  induction pieces with
  | nil => exact Finset.sum_const_zero.symm
  | cons piece rest ih =>
    have head : ∀ source, (part source (piece :: rest)).length =
        (if piece.1 = source then piece.2.length else 0) + (part source rest).length := by
      intro source
      rw [← List.singleton_append, part_append, List.length_append, part_singleton,
        apply_ite List.length, List.length_nil]
    rw [← List.singleton_append, whole_append, whole_singleton, List.length_append, ih,
      List.singleton_append]
    simp only [head, Finset.sum_add_distrib, Finset.sum_ite_eq, Finset.mem_univ, if_true]

end Merge
