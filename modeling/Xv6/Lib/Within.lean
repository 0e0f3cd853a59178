import Mathlib.Data.Option.Basic

/- A computation that gives up where another one goes on. -/

/-- `x` has exactly those results of `y` that fit, up to `R`. -/
structure Within {α β : Type} (fits : β → Prop) (R : α → β → Prop) (x : Option α) (y : Option β) :
    Prop where
  sound : ∀ a, x = some a → ∃ b, y = some b ∧ R a b
  complete : ∀ b, y = some b → fits b → ∃ a, x = some a ∧ R a b

namespace Within

variable {α β γ δ : Type} {fits : β → Prop} {fits' : δ → Prop} {R : α → β → Prop}
  {R' : γ → δ → Prop} {x : Option α} {y : Option β}

theorem none : Within fits R (none : Option α) (none : Option β) := ⟨nofun, nofun⟩

theorem some {a : α} {b : β} (related : R a b) : Within fits R (some a) (some b) := by
  refine ⟨fun a' same => ?_, fun b' same _ => ?_⟩
  · cases same
    exact ⟨b, rfl, related⟩
  · cases same
    exact ⟨a, rfl, related⟩

theorem given_up {b : β} (large : ¬ fits b) :
    Within fits R (Option.none : Option α) (Option.some b) := by
  refine ⟨nofun, fun b' same fit => ?_⟩
  cases same
  exact (large fit).elim

/-- One computation after the other; what fits in the end did so before. -/
theorem bind {f : α → Option γ} {g : β → Option δ} (first : Within fits R x y)
    (back : ∀ b c, g b = Option.some c → fits' c → fits b)
    (next : ∀ a b, y = Option.some b → R a b → Within fits' R' (f a) (g b)) :
    Within fits' R' (x.bind f) (y.bind g) := by
  refine ⟨fun c result => ?_, fun c result fit => ?_⟩
  · obtain ⟨a, here, later⟩ := Option.bind_eq_some_iff.mp result
    obtain ⟨b, there, related⟩ := first.sound a here
    obtain ⟨c', last, equal⟩ := (next a b there related).sound c later
    exact ⟨c', Option.bind_eq_some_iff.mpr ⟨b, there, last⟩, equal⟩
  · obtain ⟨b, there, later⟩ := Option.bind_eq_some_iff.mp result
    obtain ⟨a, here, related⟩ := first.complete b there (back b c later fit)
    obtain ⟨c', last, equal⟩ := (next a b there related).complete c later fit
    exact ⟨c', Option.bind_eq_some_iff.mpr ⟨a, here, last⟩, equal⟩

end Within
