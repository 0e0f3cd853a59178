import Mathlib.Data.Prod.Basic
import Mathlib.Logic.Function.Basic

/- Numbered units, each free or owned by one key. `owner` gives the unit of a key, with
0 for none, and `used` is the allocator's map of the units below `hi`; those below `lo`
are never handed out. -/
namespace Ownership

variable {κ : Type} {lo hi : Nat} {owner : κ → Nat} {used : Nat → Bool} {unit : Nat} {key : κ}
  {keys : List κ}

/-- The map is exact, and no unit has two owners. -/
structure Exact (lo hi : Nat) (owner : κ → Nat) (used : Nat → Bool) : Prop where
  inRange : ∀ key, owner key ≠ 0 → lo ≤ owner key ∧ owner key < hi
  once : ∀ key other, owner key ≠ 0 → owner key = owner other → key = other
  usedIff : ∀ unit, unit < hi → (used unit = true ↔ unit < lo ∨ ∃ key, owner key = unit ∧ unit ≠ 0)

/-- A unit that is free belongs to nobody. -/
theorem Exact.unowned (exact : Exact lo hi owner used) (inside : unit < hi)
    (free : used unit = false) : ∀ key, owner key = unit → unit = 0 := by
  intro key same
  by_contra nonzero
  have marked := (exact.usedIff unit inside).mpr (Or.inr ⟨key, same, nonzero⟩)
  rw [free] at marked
  cases marked

/-- A unit that is owned is marked. -/
theorem Exact.marked (exact : Exact lo hi owner used) (owned : owner key ≠ 0) :
    used (owner key) = true :=
  (exact.usedIff _ (exact.inRange key owned).2).mpr (Or.inr ⟨key, rfl, owned⟩)

theorem Exact.lower_of_free (exact : Exact lo hi owner used) (inside : unit < hi)
    (free : used unit = false) : lo ≤ unit := by
  by_contra below
  have marked := (exact.usedIff unit inside).mpr (Or.inl (by omega))
  rw [free] at marked
  cases marked

variable [DecidableEq κ]

/-- A key without a unit gets a free one. -/
theorem Exact.claim (exact : Exact lo hi owner used) (positive : 0 < lo)
    (inside : unit < hi) (free : used unit = false) (none : owner key = 0) :
    Exact lo hi (Function.update owner key unit) (Function.update used unit true) := by
  have lower := exact.lower_of_free inside free
  have fresh : ∀ other, owner other ≠ unit := by
    intro other same
    have zero := exact.unowned inside free other same
    omega
  refine ⟨fun other => ?_, fun first second => ?_, fun other below => ?_⟩
  · by_cases here : other = key
    · grind
    · simp only [Function.update_of_ne here]
      exact exact.inRange other
  · by_cases here : first = key
    · grind
    · by_cases there : second = key
      · grind
      · simp only [Function.update_of_ne here, Function.update_of_ne there]
        exact exact.once first second
  · by_cases here : other = unit
    · subst here
      simp only [Function.update_self, true_iff]
      exact Or.inr ⟨key, Function.update_self _ _ _, by omega⟩
    · rw [Function.update_of_ne here, exact.usedIff other below]
      refine or_congr_right ⟨?_, ?_⟩
      · rintro ⟨holder, same, nonzero⟩
        refine ⟨holder, ?_, nonzero⟩
        grind
      · rintro ⟨holder, same, nonzero⟩
        refine ⟨holder, ?_, nonzero⟩
        rwa [Function.update_of_ne] at same
        rintro rfl
        rw [Function.update_self] at same
        exact here same.symm

/-- A key gives its unit back. -/
theorem Exact.release (exact : Exact lo hi owner used) (owned : owner key ≠ 0) :
    Exact lo hi (Function.update owner key 0) (Function.update used (owner key) false) := by
  refine ⟨fun other => ?_, fun first second => ?_, fun unit below => ?_⟩
  · by_cases here : other = key
    · subst here
      simp
    · simp only [Function.update_of_ne here]
      exact exact.inRange other
  · by_cases here : first = key
    · subst here
      simp
    · by_cases there : second = key
      · grind
      · simp only [Function.update_of_ne here, Function.update_of_ne there]
        exact exact.once first second
  · by_cases here : unit = owner key
    · subst here
      simp only [Function.update_self, Bool.false_eq_true, false_iff, not_or, not_exists, not_and]
      refine ⟨by have := (exact.inRange key owned).1; omega, fun holder same => ?_⟩
      by_cases self : holder = key
      · grind
      · rw [Function.update_of_ne self] at same
        exact (self (exact.once key holder owned same.symm).symm).elim
    · rw [Function.update_of_ne here, exact.usedIff unit below]
      refine or_congr_right ⟨?_, ?_⟩
      · rintro ⟨holder, same, nonzero⟩
        refine ⟨holder, ?_, nonzero⟩
        grind
      · rintro ⟨holder, same, nonzero⟩
        refine ⟨holder, ?_, nonzero⟩
        rwa [Function.update_of_ne] at same
        rintro rfl
        rw [Function.update_self] at same
        exact nonzero same.symm

/-- The owners after some keys gave their units back. -/
def cleared (owner : κ → Nat) (keys : List κ) : κ → Nat :=
  fun key => if key ∈ keys then 0 else owner key

theorem cleared_nil (owner : κ → Nat) : cleared owner [] = owner := by
  rfl

theorem cleared_cons (owner : κ → Nat) (key : κ) (keys : List κ) :
    cleared owner (key :: keys) = cleared (Function.update owner key 0) keys := by
  funext other
  by_cases here : other = key
  · subst here
    simp only [cleared, List.mem_cons_self, ↓reduceIte, Function.update_self, ite_self]
  · simp only [cleared, List.mem_cons, here, false_or, Function.update_of_ne here]

theorem cleared_append (owner : κ → Nat) (first second : List κ) :
    cleared owner (first ++ second) = cleared (cleared owner first) second := by
  funext key
  simp only [cleared, List.mem_append]
  grind

theorem cleared_of_none {owner : κ → Nat} (none : ∀ key ∈ keys, owner key = 0) :
    cleared owner keys = owner := by
  grind [cleared]

theorem cleared_of_not_mem (owner : κ → Nat) (absent : key ∉ keys) :
    cleared owner keys key = owner key := by
  simp only [cleared, absent, ↓reduceIte]

end Ownership
