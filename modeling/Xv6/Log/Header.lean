import Mathlib.Logic.Function.Basic
import Mathlib.Data.List.Nodup
import Mathlib.Data.List.Range
import Xv6.Params

/- struct logheader of log.c and the absorbing append of `log_write`. -/
namespace Xv6.Log

variable {blockno : Nat}

/-- `block[i]` is meaningful for `i < n` only. -/
structure Logheader where
  n : Nat
  block : Nat → Nat

/-- The block numbers the header lists. -/
def Logheader.blocks (lh : Logheader) : List Nat := (List.range lh.n).map lh.block

/-- The index at which the loop of `log_write` stops: the block's own, or `n`. -/
def Logheader.slot (lh : Logheader) (blockno : Nat) : Nat :=
  ((List.range lh.n).find? fun i => lh.block i == blockno).getD lh.n

/-- The locked part of `log_write`: record the block number unless it is logged already. -/
def Logheader.absorb (lh : Logheader) (blockno : Nat) : Logheader where
  n := if lh.slot blockno = lh.n then lh.n + 1 else lh.n
  block := Function.update lh.block (lh.slot blockno) blockno

@[simp] theorem length_blocks (lh : Logheader) : lh.blocks.length = lh.n := by
  simp [Logheader.blocks]

theorem mem_blocks {lh : Logheader} : blockno ∈ lh.blocks ↔ ∃ i < lh.n, lh.block i = blockno := by
  simp [Logheader.blocks]

theorem slot_of_mem {lh : Logheader} (logged : blockno ∈ lh.blocks) :
    lh.slot blockno < lh.n ∧ lh.block (lh.slot blockno) = blockno := by
  obtain ⟨i, below, named⟩ := mem_blocks.mp logged
  unfold Logheader.slot
  cases found : (List.range lh.n).find? fun i => lh.block i == blockno with
  | none =>
    have absent := List.find?_eq_none.mp found i (List.mem_range.mpr below)
    simp [named] at absent
  | some j =>
    have bound := List.mem_range.mp (List.mem_of_find?_eq_some found)
    have passed := List.find?_some found
    exact ⟨bound, by simpa using passed⟩

theorem slot_of_not_mem {lh : Logheader} (fresh : blockno ∉ lh.blocks) :
    lh.slot blockno = lh.n := by
  have absent : ((List.range lh.n).find? fun i => lh.block i == blockno) = none := by
    rw [List.find?_eq_none]
    intro i inside
    have other : lh.block i ≠ blockno := by grind [mem_blocks]
    simpa using other
  simp [Logheader.slot, absent]

/-- Absorption: a logged block changes nothing, a new one is appended. -/
theorem absorb_of_mem {lh : Logheader} (logged : blockno ∈ lh.blocks) : lh.absorb blockno = lh := by
  obtain ⟨below, named⟩ := slot_of_mem logged
  have same : Function.update lh.block (lh.slot blockno) blockno = lh.block := by grind
  simp [Logheader.absorb, Nat.ne_of_lt below, same]

theorem absorb_n_of_not_mem {lh : Logheader} (fresh : blockno ∉ lh.blocks) :
    (lh.absorb blockno).n = lh.n + 1 := by
  simp [Logheader.absorb, slot_of_not_mem fresh]

theorem n_le_absorb (lh : Logheader) (blockno : Nat) : lh.n ≤ (lh.absorb blockno).n := by
  simp only [Logheader.absorb]
  split <;> omega

theorem absorb_block_of_not_mem {lh : Logheader} (fresh : blockno ∉ lh.blocks)
    (i : Nat) : (lh.absorb blockno).block i = if i = lh.n then blockno else lh.block i := by
  simp only [Logheader.absorb, slot_of_not_mem fresh, Function.update_apply]

theorem blocks_absorb_of_not_mem {lh : Logheader} (fresh : blockno ∉ lh.blocks) :
    (lh.absorb blockno).blocks = lh.blocks ++ [blockno] := by
  have kept : (List.range lh.n).map (lh.absorb blockno).block = (List.range lh.n).map lh.block := by
    apply List.map_congr_left
    intro i inside
    have below := List.mem_range.mp inside
    rw [absorb_block_of_not_mem fresh, if_neg (by omega)]
  rw [Logheader.blocks, absorb_n_of_not_mem fresh, List.range_succ, List.map_append, kept]
  simp [absorb_block_of_not_mem fresh, Logheader.blocks]

theorem mem_blocks_absorb {lh : Logheader} {other : Nat} :
    other ∈ (lh.absorb blockno).blocks ↔ other ∈ lh.blocks ∨ other = blockno := by
  by_cases logged : blockno ∈ lh.blocks
  · rw [absorb_of_mem logged]
    constructor
    · exact Or.inl
    · rintro (inside | rfl)
      · exact inside
      · exact logged
  · rw [blocks_absorb_of_not_mem logged, List.mem_append, List.mem_singleton]

theorem nodup_absorb {lh : Logheader} (distinct : lh.blocks.Nodup) :
    (lh.absorb blockno).blocks.Nodup := by
  by_cases logged : blockno ∈ lh.blocks
  · rwa [absorb_of_mem logged]
  · rw [blocks_absorb_of_not_mem logged]
    simpa only [List.concat_eq_append] using distinct.concat logged

end Xv6.Log
