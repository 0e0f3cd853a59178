import Mathlib.Data.Option.Basic

/-- What running a piece of code can lead to: a result, a panic with its message, or
a wait for something only another thread can do. -/
inductive Outcome (α : Type) where
  | ok (value : α)
  | panic (message : String)
  | blocked

namespace Outcome

variable {α β : Type} {f : α → β} {outcome : Outcome α}

def toOption : Outcome α → Option α
  | .ok value => some value
  | _ => none

/-- The message of a panic. -/
def message : Outcome α → Option String
  | .panic message => some message
  | _ => none

def map (f : α → β) : Outcome α → Outcome β
  | .ok value => .ok (f value)
  | .panic message => .panic message
  | .blocked => .blocked

theorem map_eq_ok {value : β} :
    outcome.map f = .ok value ↔ ∃ inner, outcome = .ok inner ∧ f inner = value := by
  cases outcome <;> simp [map]

theorem map_eq_panic {message : String} :
    outcome.map f = .panic message ↔ outcome = .panic message := by
  cases outcome <;> simp [map]

@[simp] theorem toOption_eq_some {value : α} :
    outcome.toOption = some value ↔ outcome = .ok value := by
  cases outcome <;> simp [toOption]

theorem message_eq_some {text : String} : outcome.message = some text ↔ outcome = .panic text := by
  cases outcome <;> simp [message]

end Outcome
