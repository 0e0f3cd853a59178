import Mathlib.Data.List.Basic

/- Finite runs of a partial step function. Nothing here knows which machine is
run: a step that returns `none` is one the machine cannot take. -/
namespace Runs

variable {σ ε : Type}

/-- The state a list of events leads to. -/
def run (step : σ → ε → Option σ) : σ → List ε → Option σ
  | state, [] => some state
  | state, event :: rest => (step state event).bind fun next => run step next rest

/-- Each event of the run meets `ok` in the state it is taken from. -/
def Meets (step : σ → ε → Option σ) (ok : σ → ε → Prop) : σ → List ε → Prop
  | _, [] => True
  | state, event :: rest =>
    ok state event ∧ ∀ next, step state event = some next → Meets step ok next rest

variable {step : σ → ε → Option σ} {ok : σ → ε → Prop}

instance Meets.decidable [∀ state event, Decidable (ok state event)] :
    ∀ state events, Decidable (Meets step ok state events)
  | _, [] => isTrue trivial
  | state, event :: rest =>
    match taken : step state event with
    | none => decidable_of_iff (ok state event) (by simp [Meets, taken])
    | some next =>
      have := Meets.decidable next rest
      decidable_of_iff (ok state event ∧ Meets step ok next rest) (by simp [Meets, taken])

@[simp] theorem run_nil (state : σ) : run step state [] = some state := rfl

theorem run_cons_some {state final : σ} {event : ε} {rest : List ε} :
    run step state (event :: rest) = some final ↔
      ∃ next, step state event = some next ∧ run step next rest = some final := by
  simp only [run, Option.bind_eq_some_iff]

theorem run_append (state : σ) (first second : List ε) : run step state (first ++ second) =
      (run step state first).bind fun middle => run step middle second := by
  induction first generalizing state with
  | nil => rfl
  | cons event rest ih =>
    simp [List.cons_append, run, Option.bind_assoc, ih]

/-- What every accepted step preserves, a whole run preserves. -/
theorem run_preserves {inv : σ → Prop} (preserves : ∀ state event next, ok state event → inv state →
      step state event = some next → inv next)
    {state final : σ} {events : List ε} (meets : Meets step ok state events)
    (reached : run step state events = some final) (initial : inv state) : inv final := by
  induction events generalizing state with
  | nil =>
    cases reached
    exact initial
  | cons event rest ih =>
    obtain ⟨next, taken, remaining⟩ := run_cons_some.mp reached
    exact ih (meets.2 next taken) remaining (preserves state event next meets.1 initial taken)

/-- The same for a condition on the events alone. -/
theorem run_keeps {inv : σ → Prop} {allowed : ε → Prop}
    (preserves : ∀ state event next, allowed event → inv state →
      step state event = some next → inv next)
    {state final : σ} {events : List ε} (all : ∀ event ∈ events, allowed event)
    (reached : run step state events = some final) (initial : inv state) : inv final := by
  induction events generalizing state with
  | nil =>
    cases reached
    exact initial
  | cons event rest ih =>
    obtain ⟨next, taken, remaining⟩ := run_cons_some.mp reached
    have here := all event List.mem_cons_self
    exact ih (fun later member => all later (List.mem_cons_of_mem _ member)) remaining
      (preserves state event next here initial taken)

theorem Meets.of_forall {events : List ε} (all : ∀ state, ∀ event ∈ events, ok state event)
    (state : σ) : Meets step ok state events := by
  induction events generalizing state with
  | nil => trivial
  | cons event rest ih =>
    refine ⟨all state event List.mem_cons_self, fun next _ => ?_⟩
    exact ih (fun later member => fun inside =>
      all later member (List.mem_cons_of_mem _ inside)) next

theorem Meets.mono {weaker : σ → ε → Prop}
    (imply : ∀ state event, ok state event → weaker state event) {state : σ} {events : List ε}
    (meets : Meets step ok state events) :
    Meets step weaker state events := by
  induction events generalizing state with
  | nil => trivial
  | cons event rest ih =>
    exact ⟨imply state event meets.1, fun next taken => ih (meets.2 next taken)⟩

theorem Meets.append {state middle : σ} {first second : List ε}
    (meets : Meets step ok state (first ++ second))
    (reached : run step state first = some middle) : Meets step ok middle second := by
  induction first generalizing state with
  | nil =>
    cases reached
    exact meets
  | cons event rest ih =>
    obtain ⟨next, taken, remaining⟩ := run_cons_some.mp reached
    exact ih (meets.2 next taken) remaining

theorem Meets.first {state : σ} {first second : List ε}
    (meets : Meets step ok state (first ++ second)) : Meets step ok state first := by
  induction first generalizing state with
  | nil => trivial
  | cons event rest ih => exact ⟨meets.1, fun next taken => ih (meets.2 next taken)⟩

/-- Where a step keeps `inv` exactly if it is `ok`, all states of a run have `inv` exactly if
all its steps are `ok`. What holds without condition may be used, as `base`. -/
theorem all_iff_meets {base inv : σ → Prop}
    (kept : ∀ state event next, base state → step state event = some next → base next)
    (exact : ∀ state event next, base state → inv state → step state event = some next →
      (inv next ↔ ok state event))
    {state final : σ} {events : List ε} (reached : run step state events = some final)
    (sound : base state) (initial : inv state) :
    (∀ before after middle, events = before ++ after → run step state before = some middle →
      inv middle) ↔ Meets step ok state events := by
  induction events generalizing state with
  | nil =>
    refine ⟨fun _ => trivial, fun _ before after middle split here => ?_⟩
    rw [(List.append_eq_nil_iff.mp split.symm).1] at here
    cases here
    exact initial
  | cons event rest ih =>
    obtain ⟨next, taken, remaining⟩ := run_cons_some.mp reached
    have sound' := kept state event next sound taken
    constructor
    · intro always
      have first : inv next := always [event] rest next rfl (by simp [run, taken])
      refine ⟨(exact state event next sound initial taken).mp first, fun other same => ?_⟩
      rw [taken] at same
      cases same
      refine (ih remaining sound' first).mp fun before after middle split here => ?_
      grind [run_cons_some]
    · intro meets before after middle split here
      cases before with
      | nil =>
        cases here
        exact initial
      | cons head before =>
        obtain ⟨rfl, tail⟩ := List.cons.inj split
        obtain ⟨other, same, here⟩ := run_cons_some.mp here
        rw [taken] at same
        cases same
        have first := (exact state event next sound initial taken).mpr meets.1
        exact (ih remaining sound' first).mpr (meets.2 next taken) before after middle tail here

end Runs
