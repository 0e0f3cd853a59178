import Mathlib.Logic.Function.Iterate

/- Loops whose body either goes on with a new state or leaves with a result. The number counts
the rounds the loop is given, and a loop that has not left by then has no result. -/
namespace Loop

variable {σ ρ : Type}

inductive Round (σ ρ : Type) where
  | again (state : σ)
  | leave (result : ρ)

def run (body : σ → Round σ ρ) : Nat → σ → Option ρ
  | 0, _ => none
  | rounds + 1, state =>
    match body state with
    | .again state => run body rounds state
    | .leave result => some result

/-- What a round does from a state of the invariant: it keeps the invariant and comes closer to
its end, or leaves with a result as wanted. -/
def Round.Descends (invariant : σ → Prop) (variant : σ → Nat) (post : ρ → Prop) (state : σ) :
    Round σ ρ → Prop
  | .again next => invariant next ∧ variant next < variant state
  | .leave result => post result

variable {body : σ → Round σ ρ} {post : ρ → Prop}

theorem run_ends (invariant : σ → Prop) (variant : σ → Nat)
    (step : ∀ state, invariant state → (body state).Descends invariant variant post state)
    (state : σ) (start : invariant state) :
    ∃ result, post result ∧ ∀ rounds > variant state, run body rounds state = some result := by
  induction bound : variant state using Nat.strongRecOn generalizing state with
  | ind size ih =>
    have round := step state start
    cases next : body state with
    | leave result =>
      rw [next] at round
      refine ⟨result, round, fun rounds enough => ?_⟩
      obtain ⟨rounds, rfl⟩ := Nat.exists_eq_add_of_lt enough
      rw [run, next]
    | again later =>
      rw [next] at round
      obtain ⟨result, meets, runs⟩ := ih _ (by have := round.2; omega) _ round.1 rfl
      refine ⟨result, meets, fun rounds enough => ?_⟩
      obtain ⟨rounds, rfl⟩ : ∃ less, rounds = less + 1 := ⟨rounds - 1, by omega⟩
      rw [run, next]
      exact runs rounds (by have := round.2; omega)

theorem run_diverges (invariant : σ → Prop)
    (step : ∀ state, invariant state → ∃ next, body state = .again next ∧ invariant next)
    {state : σ} (start : invariant state) (rounds : Nat) : run body rounds state = none := by
  induction rounds generalizing state with
  | zero => rfl
  | succ rounds ih =>
    obtain ⟨next, again, kept⟩ := step state start
    rw [run, again]
    exact ih kept

end Loop
