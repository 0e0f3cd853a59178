import Xv6.Lib.Outcome

/- Code over a state that may stop: a program is run from a state and returns a value
with the next state, panics, or waits for ever. `Spec` says what holds when it
returns and how else it may end. -/

def Exec (σ α : Type) : Type := σ → Outcome (α × σ)

namespace Exec

variable {σ α β : Type} {first program : Exec σ α} {next : α → Exec σ β} {post : α → σ → Prop}
  {value : α} {change : σ → σ} {after : σ} {message : String} {more : α → σ → Prop}
  {condition : Prop}

instance : Monad (Exec σ) where
  pure value := fun state => .ok (value, state)
  bind first next := fun state =>
    match first state with
    | .ok (value, after) => next value after
    | .panic message => .panic message
    | .blocked => .blocked

theorem bind_def (first : Exec σ α) (next : α → Exec σ β) (state : σ) : (first >>= next) state =
    match first state with
    | .ok (value, after) => next value after
    | .panic message => .panic message
    | .blocked => .blocked := rfl

instance : LawfulMonad (Exec σ) := by
  refine LawfulMonad.mk' (Exec σ) (fun x => ?_) (fun _ _ => rfl) (fun x f g => ?_)
  · funext state
    change (x >>= pure) state = x state
    rw [bind_def]
    cases x state <;> rfl
  · funext state
    rw [bind_def, bind_def, bind_def]
    cases x state <;> rfl

def get : Exec σ σ := fun state => .ok (state, state)

def modify (change : σ → σ) : Exec σ Unit := fun state => .ok ((), change state)

def panic (message : String) : Exec σ α := fun _ => .panic message

/-- Wait for something that only another thread could do. -/
def wait : Exec σ α := fun _ => .blocked

/-- An `if` without an else branch. -/
def when (condition : Prop) [Decidable condition] (program : Exec σ Unit) : Exec σ Unit :=
  if condition then program else pure ()

theorem bind_eq_ok {state : σ} {result : β × σ} : (first >>= next) state = .ok result ↔
      ∃ value after, first state = .ok (value, after) ∧ next value after = .ok result := by
  rw [bind_def]
  cases first state with
  | ok pair =>
    constructor
    · grind
    · grind
  | panic message => simp
  | blocked => simp

/-- The ways in which a program may fail to return: these panics, and whether it may wait
for ever. -/
structure Stops where
  panics : String → Prop
  waits : Prop

instance : CoeFun Stops fun _ => String → Prop := ⟨Stops.panics⟩

/-- Nothing is said about programs that do not return. -/
def Stops.all : Stops := ⟨fun _ => True, True⟩

/-- The program returns. -/
def Stops.nothing : Stops := ⟨fun _ => False, False⟩

/-- None of these panics. -/
def Stops.except (messages : List String) : Stops := ⟨fun message => message ∉ messages, True⟩

/-- From `state` the program ends in `post`, or in a way that is `allowed`. -/
structure Spec (allowed : Stops) (program : Exec σ α) (state : σ) (post : α → σ → Prop) : Prop where
  holds : match program state with
    | .ok (value, after) => post value after
    | .panic message => allowed message
    | .blocked => allowed.waits

variable {allowed : Stops} {state : σ}

theorem Spec.ok
    (spec : Spec allowed program state post) (returned : program state = .ok (value, after)) :
    post value after := by
  have holds := spec.holds
  rw [returned] at holds
  exact holds

theorem Spec.panicked
    (spec : Spec allowed program state post) (panicked : program state = .panic message) :
    allowed message := by
  have holds := spec.holds
  rw [panicked] at holds
  exact holds

theorem Spec.blocked (spec : Spec allowed program state post) (blocked : program state = .blocked) :
    allowed.waits := by
  have holds := spec.holds
  rw [blocked] at holds
  exact holds

theorem Spec.pure (holds : post value state) : Spec allowed (Pure.pure value) state post := ⟨holds⟩

/-- Two programs that do the same from here. -/
theorem Spec.congr {second : Exec σ α} (same : first state = second state)
    (spec : Spec allowed second state post) : Spec allowed first state post := by
  constructor
  rw [same]
  exact spec.holds

/-- A program whose result is known. -/
theorem Spec.of_eq (returned : program state = .ok (value, after)) :
    Spec allowed program state fun result final => result = value ∧ final = after := by
  constructor
  rw [returned]
  exact ⟨rfl, rfl⟩

theorem Spec.bind {middle : α → σ → Prop}
    {post : β → σ → Prop} (before : Spec allowed first state middle)
    (behind : ∀ value after, middle value after → Spec allowed (next value) after post) :
    Spec allowed (first >>= next) state post := by
  have holds := before.holds
  constructor
  change match (match first state with
    | .ok (value, after) => next value after
    | .panic message => Outcome.panic message
    | .blocked => Outcome.blocked) with
    | .ok (value, after) => post value after
    | .panic message => allowed message
    | .blocked => allowed.waits
  cases run : first state with
  | ok pair =>
    grind [holds]
  | panic message =>
    rw [run] at holds
    exact holds
  | blocked =>
    rw [run] at holds
    exact holds

/-- `Spec.bind`, with the condition in the middle given. -/
theorem Spec.through (middle : α → σ → Prop)
    {post : β → σ → Prop} (before : Spec allowed first state middle)
    (behind : ∀ value after, middle value after → Spec allowed (next value) after post) :
    Spec allowed (first >>= next) state post :=
  Spec.bind before behind

theorem Spec.mono {strong weak : α → σ → Prop} (spec : Spec allowed program state strong)
    (imply : ∀ value after, strong value after → weak value after) :
    Spec allowed program state weak := by
  have holds := spec.holds
  constructor
  cases run : program state with
  | ok pair =>
    grind
  | panic message =>
    rw [run] at holds
    exact holds
  | blocked =>
    rw [run] at holds
    exact holds

/-- What two specifications say of the same program. -/
theorem Spec.both {first second : Stops}
    (before : Spec first program state post) (behind : Spec second program state more)
    (panics : ∀ message, first message → second message → allowed message)
    (waits : first.waits → second.waits → allowed.waits) :
    Spec allowed program state fun value after => post value after ∧ more value after := by
  have holds := before.holds
  have also := behind.holds
  constructor
  cases run : program state with
  | ok pair =>
    grind
  | panic message =>
    grind
  | blocked =>
    rw [run] at holds also
    exact waits holds also

/-- What two specifications say of the runs that return. -/
theorem Spec.and (before : Spec Stops.all program state post)
    (behind : Spec Stops.all program state more) :
    Spec Stops.all program state fun value after => post value after ∧ more value after :=
  before.both behind (fun _ _ _ => trivial) fun _ _ => trivial

/-- A program that may do nothing else returns. -/
theorem Spec.total (spec : Spec Stops.nothing program state post) :
    ∃ value after, program state = .ok (value, after) ∧ post value after := by
  have holds := spec.holds
  cases run : program state with
  | ok pair =>
    grind
  | panic message =>
    rw [run] at holds
    exact holds.elim
  | blocked =>
    rw [run] at holds
    exact holds.elim

theorem Spec.any (program : Exec σ α) (state : σ) :
    Spec Stops.all program state fun _ _ => True := by
  constructor
  cases program state <;> trivial

theorem Spec.bind_get {next : σ → Exec σ β} {post : β → σ → Prop}
    (behind : Spec allowed (next state) state post) : Spec allowed (Exec.get >>= next) state post :=
  ⟨behind.holds⟩

theorem Spec.bind_modify {next : Unit → Exec σ β} {post : β → σ → Prop}
    (behind : Spec allowed (next ()) (change state) post) :
    Spec allowed (Exec.modify change >>= next) state post :=
  ⟨behind.holds⟩

theorem Spec.modify {post : Unit → σ → Prop} (holds : post () (change state)) :
    Spec allowed (Exec.modify change) state post := ⟨holds⟩

theorem Spec.panic (fine : allowed message) : Spec allowed (Exec.panic message) state post := ⟨fine⟩

theorem Spec.when [Decidable condition] {program : Exec σ Unit} {post : Unit → σ → Prop}
    (taken : condition → Spec allowed program state post) (skipped : ¬ condition → post () state) :
    Spec allowed (Exec.when condition program) state post := by
  grind [Exec.when, pure]

theorem Spec.wait (fine : allowed.waits) : Spec allowed Exec.wait state post := ⟨fine⟩

section Parts

variable {τ : Type}

/-- A program on one part of a state that has two. -/
def onFirst (program : Exec σ α) : Exec (σ × τ) α := fun state =>
  match program state.1 with
  | .ok (value, after) => .ok (value, (after, state.2))
  | .panic message => .panic message
  | .blocked => .blocked

def onSecond (program : Exec τ α) : Exec (σ × τ) α := fun state =>
  match program state.2 with
  | .ok (value, after) => .ok (value, (state.1, after))
  | .panic message => .panic message
  | .blocked => .blocked

variable {both : σ × τ}

theorem Spec.onFirst (spec : Spec allowed program both.1 post) :
    Spec allowed (Exec.onFirst program) both fun value after => post value after.1 ∧
      after.2 = both.2 := by
  have holds := spec.holds
  constructor
  rw [Exec.onFirst]
  cases run : program both.1 with
  | ok pair =>
    rw [run] at holds
    exact ⟨holds, rfl⟩
  | panic message =>
    rw [run] at holds
    exact holds
  | blocked =>
    rw [run] at holds
    exact holds

theorem Spec.onSecond {program : Exec τ α} {post : α → τ → Prop}
    (spec : Spec allowed program both.2 post) :
    Spec allowed (Exec.onSecond program) both fun value after => post value after.2 ∧
      after.1 = both.1 := by
  have holds := spec.holds
  constructor
  rw [Exec.onSecond]
  cases run : program both.2 with
  | ok pair =>
    rw [run] at holds
    exact ⟨holds, rfl⟩
  | panic message =>
    rw [run] at holds
    exact holds
  | blocked =>
    rw [run] at holds
    exact holds

end Parts

/-- The program leaves the part of the state that `view` shows as it is. -/
structure Keeps {γ : Type} (view : σ → γ) (program : Exec σ α) : Prop where
  holds : ∀ state value after, program state = .ok (value, after) → view after = view state

section Keeps

variable {γ : Type} {view : σ → γ}

/-- Nothing else is said about a program that keeps the view. -/
theorem Keeps.spec (keeps : Keeps view program) (state : σ) :
    Spec Stops.all program state fun _ after => view after = view state := by
  constructor
  cases run : program state with
  | ok pair => exact keeps.holds state pair.1 pair.2 run
  | panic => trivial
  | blocked => trivial

theorem Keeps.pure (value : α) : Keeps view (Pure.pure value) := by
  constructor
  intro state _ after returned
  cases returned
  rfl

theorem Keeps.bind (before : Keeps view first)
    (behind : ∀ value, Keeps view (next value)) : Keeps view (first >>= next) := by
  constructor
  intro state result after returned
  obtain ⟨value, middle, run, rest⟩ := bind_eq_ok.mp returned
  rw [(behind value).holds _ _ _ rest, before.holds _ _ _ run]

theorem Keeps.get : Keeps view (Exec.get : Exec σ σ) := by
  constructor
  intro state _ after returned
  cases returned
  rfl

theorem Keeps.modify (same : ∀ state, view (change state) = view state) :
    Keeps view (Exec.modify change) := by
  constructor
  intro state _ after returned
  cases returned
  exact same state

theorem Keeps.bind_modify {next : Unit → Exec σ β}
    (same : ∀ state, view (change state) = view state) (behind : Keeps view (next ())) :
    Keeps view (Exec.modify change >>= next) :=
  (Keeps.modify same).bind fun _ => behind

theorem Keeps.panic (message : String) : Keeps view (Exec.panic message : Exec σ α) := by
  constructor
  intro state _ after returned
  cases returned

theorem Keeps.wait : Keeps view (Exec.wait : Exec σ α) := by
  constructor
  intro state _ after returned
  cases returned

theorem Keeps.when [Decidable condition] {program : Exec σ Unit}
    (keeps : Keeps view program) : Keeps view (Exec.when condition program) := by
  grind [Exec.when, pure]

end Keeps

end Exec
