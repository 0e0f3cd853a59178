import Mathlib.Logic.Function.Basic
import Mathlib.Data.List.Basic

/- A keyed store and the effect of a list of writes to it, in order. -/
namespace Store

variable {κ β : Type} [DecidableEq κ]

def applyWrites (store : κ → β) (writes : List (κ × β)) : κ → β :=
  writes.foldl (fun state write => Function.update state write.1 write.2) store

/-- The store after a list of batches, each applied as a whole. -/
def applyBatches (store : κ → β) (batches : List (List (κ × β))) : κ → β :=
  batches.foldl applyWrites store

theorem applyWrites_concat (store : κ → β) (writes : List (κ × β)) (key : κ) (value : β) :
    applyWrites store (writes ++ [(key, value)]) =
      Function.update (applyWrites store writes) key value := by
  simp only [applyWrites, List.foldl_append, List.foldl_cons, List.foldl_nil]

theorem applyWrites_untouched (store : κ → β) (writes : List (κ × β)) (key : κ)
    (untouched : key ∉ writes.map Prod.fst) : applyWrites store writes key = store key := by
  induction writes generalizing store with
  | nil => rfl
  | cons write rest ih =>
    simp only [List.map_cons, List.mem_cons, not_or] at untouched
    have kept := ih (Function.update store write.1 write.2) untouched.2
    exact kept.trans (Function.update_of_ne untouched.1 write.2 store)

theorem applyBatches_concat (store : κ → β) (batches : List (List (κ × β))) (batch : List (κ × β)) :
    applyBatches store (batches ++ [batch]) = applyWrites (applyBatches store batches) batch := by
  simp only [applyBatches, List.foldl_append, List.foldl_cons, List.foldl_nil]

end Store
