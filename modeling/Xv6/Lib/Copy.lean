import Mathlib.Data.List.Nodup
import Mathlib.Data.List.Range
import Mathlib.Logic.Function.Basic

/- Copying cell by cell: each index of a list moves one cell, in the order of the list, and
what is read is what the moves before have left. -/
namespace Copy

variable {A B : Type} [DecidableEq A] {dst src : Nat → A} {mem : A → B} {order : List Nat}

def copy (dst src : Nat → A) (mem : A → B) (order : List Nat) : A → B :=
  order.foldl (fun mem i => Function.update mem (dst i) (mem (src i))) mem

theorem copy_cons (i : Nat) (order : List Nat) :
    copy dst src mem (i :: order) = copy dst src (Function.update mem (dst i) (mem (src i)))
      order := rfl

theorem copy_append (first second : List Nat) :
    copy dst src mem (first ++ second) = copy dst src (copy dst src mem first) second := by
  simp only [copy, List.foldl_append]

theorem copy_map (next : Nat → Nat) (order : List Nat) :
    copy dst src mem (order.map next) = copy (dst ∘ next) (src ∘ next) mem order := by
  simp only [copy, List.foldl_map, Function.comp_apply]

theorem copy_frame {a : A} (outside : ∀ i ∈ order, a ≠ dst i) :
    copy dst src mem order a = mem a := by
  induction order generalizing mem with
  | nil => rfl
  | cons i order ih =>
    rw [copy_cons, ih (fun j inside => outside j (List.mem_cons_of_mem i inside))]
    exact Function.update_of_ne (outside i List.mem_cons_self) _ _

/-- No move reads what an earlier one has written, so that every move reads the old cells. -/
theorem copy_moves (dst src : Nat → A) (mem : A → B)
    (apart : order.Pairwise fun i j => dst i ≠ dst j)
    (unread : order.Pairwise fun i j => dst i ≠ src j) {j : Nat} (inside : j ∈ order) :
    copy dst src mem order (dst j) = mem (src j) := by
  induction order generalizing mem with
  | nil => cases inside
  | cons i order ih =>
    rw [List.pairwise_cons] at apart unread
    rw [copy_cons]
    rcases List.mem_cons.mp inside with first | later
    · grind [copy_frame, Function.update_self]
    · grind

/-- In rising order a move reads what the moves of the smaller indices have left. -/
theorem copy_range (dst src : Nat → A) (mem : A → B) {n j : Nat}
    (apart : ∀ i k, i < n → k < n → dst i = dst k → i = k) (inside : j < n) :
    copy dst src mem (List.range n) (dst j) = copy dst src mem (List.range j) (src j) := by
  induction n with
  | zero => omega
  | succ n ih =>
    rw [List.range_succ, copy_append, copy_cons]
    by_cases last : j = n
    · subst last
      exact Function.update_self ..
    · rw [← ih (fun i k small small' => apart i k (by omega) (by omega)) (by omega)]
      exact Function.update_of_ne (fun same => last (apart j n (by omega) (by omega) same)) _ _

end Copy
