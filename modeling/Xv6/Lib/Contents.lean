import Mathlib.Algebra.BigOperators.Group.Finset.Basic
import Mathlib.Algebra.Order.Group.Multiset
import Mathlib.Tactic.Abel

/- Slots that may hold a thing each, as the multiset of what they hold. -/
namespace Contents

variable {ι α : Type}

/-- What one slot holds. -/
def one : Option α → Multiset α
  | none => 0
  | some x => {x}

/-- What the slots of `S` hold. -/
def contents (S : Finset ι) (f : ι → Option α) : Multiset α := ∑ i ∈ S, one (f i)

variable {S : Finset ι} {f g : ι → Option α} {x : α} {i j : ι}

theorem mem_one {slot : Option α} : x ∈ one slot ↔ slot = some x := by
  cases slot with
  | none => simp [one]
  | some y => simp [one, eq_comm]

theorem mem_contents : x ∈ contents S f ↔ ∃ i ∈ S, f i = some x := by
  simp only [contents, Multiset.mem_sum, mem_one]

theorem contents_congr (same : ∀ i ∈ S, f i = g i) : contents S f = contents S g :=
  Finset.sum_congr rfl fun i member => by rw [same i member]

theorem contents_empty (empty : ∀ i ∈ S, f i = none) : contents S f = 0 := by
  refine Finset.sum_eq_zero fun i member => ?_
  rw [empty i member]
  rfl

theorem contents_range (n : Nat) (f : Nat → Option α) :
    contents (Finset.range n) f = ((List.range n).map fun i => one (f i)).sum := rfl

variable [DecidableEq ι]

/-- Another thing in one slot. -/
theorem contents_update (member : i ∈ S) (slot : Option α) :
    contents S (Function.update f i slot) + one (f i) = contents S f + one slot := by
  have others : ∑ j ∈ S.erase i, one (Function.update f i slot j) = ∑ j ∈ S.erase i, one (f j) := by
    refine Finset.sum_congr rfl fun j other => ?_
    rw [Function.update_of_ne (Finset.ne_of_mem_erase other)]
  grind [contents, Finset.add_sum_erase, one, Function.update_self]

theorem contents_put (member : i ∈ S) (empty : f i = none) (x : α) :
    contents S (Function.update f i (some x)) = contents S f + {x} := by
  have moved := @contents_update _ _ S f i _ member (some x)
  rwa [empty, one, add_zero] at moved

theorem contents_take (member : i ∈ S) (here : f i = some x) :
    contents S (Function.update f i none) + {x} = contents S f := by
  have moved := @contents_update _ _ S f i _ member none
  rwa [here, one, one, add_zero] at moved

/-- A thing that is not there twice is in one slot. -/
theorem contents_inj (once : (contents S f).Nodup) (first : i ∈ S) (second : j ∈ S)
    (here : f i = some x) (there : f j = some x) : i = j := by
  by_contra apart
  have taken := contents_take first here
  rw [← taken] at once
  have left : x ∈ contents S (Function.update f i none) := by
    refine mem_contents.mpr ⟨j, second, ?_⟩
    rw [Function.update_of_ne (Ne.symm apart), there]
  exact Multiset.disjoint_left.mp (Multiset.nodup_add.mp once).2.2 left
    (Multiset.mem_singleton_self x)

end Contents
