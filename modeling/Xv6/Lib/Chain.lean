import Mathlib.Data.List.Nodup
import Mathlib.Logic.Function.Basic

/- Singly linked queues: a head pointer and a `next` pointer in each node, where an element is
added by walking to the pointer that is null. -/
namespace Chain

variable {α : Type}

/-- The nodes from `head` on, up to the null pointer. -/
inductive Chained (next : α → Option α) : Option α → List α → Prop
  | nil : Chained next none []
  | cons {a : α} {rest : List α} (tail : Chained next (next a) rest) :
      Chained next (some a) (a :: rest)

/-- The place of a pointer: the head, or the `next` of a node. -/
abbrev Place (α : Type) := Option α

/-- What the pointer at that place is. -/
def deref (next : α → Option α) (head : Option α) : Place α → Option α
  | none => head
  | some a => next a

/-- The place of the null pointer, `fuel` steps away at most. -/
def lastPlace (next : α → Option α) (head : Option α) : Nat → Place α → Option (Place α)
  | 0, _ => none
  | fuel + 1, place =>
    match deref next head place with
    | none => some place
    | some a => lastPlace next head fuel (some a)

variable {next next' : α → Option α} {head : Option α} {a b : α} {list list' rest : List α}

theorem Chained.head_eq (chained : Chained next head list) : head = list.head? := by
  cases chained with
  | nil => rfl
  | cons => rfl

theorem Chained.tail (chained : Chained next head (a :: rest)) : Chained next (next a) rest := by
  cases chained with
  | cons tail => exact tail

/-- Pointers determine the list. -/
theorem Chained.unique (chained : Chained next head list) (other : Chained next head list') :
    list' = list := by
  induction chained generalizing list' with
  | nil =>
    cases other
    rfl
  | cons tail ih =>
    cases other with
    | cons tail' => rw [ih tail']

theorem Chained.of_mem (chained : Chained next head list) (member : a ∈ list) :
    ∃ rest, rest.length < list.length ∧ Chained next (some a) (a :: rest) := by
  induction chained with
  | nil => cases member
  | cons tail ih =>
    rcases List.mem_cons.mp member with rfl | later
    · exact ⟨_, Nat.lt_succ_self _, Chained.cons tail⟩
    · obtain ⟨rest, shorter, found⟩ := ih later
      exact ⟨rest, Nat.lt_succ_of_lt shorter, found⟩

/-- A chain that ends has no node twice. -/
theorem Chained.nodup (chained : Chained next head list) : list.Nodup := by
  induction chained with
  | nil => exact List.nodup_nil
  | cons tail ih =>
    refine List.nodup_cons.mpr ⟨fun again => ?_, ih⟩
    obtain ⟨shorter, less, found⟩ := tail.of_mem again
    have same := (Chained.cons tail).unique found
    grind

theorem Chained.congr (chained : Chained next head list) (same : ∀ a ∈ list, next' a = next a) :
    Chained next' head list := by
  induction chained with
  | nil => exact Chained.nil
  | cons tail ih =>
    rename_i a rest
    refine Chained.cons ?_
    grind

/-- The walk ends at the last node. -/
theorem Chained.lastPlace_eq {top : Option α} {fuel : Nat} {place : Place α}
    (chained : Chained next head list) (here : deref next top place = head)
    (enough : list.length < fuel) :
    lastPlace next top fuel place = some (list.getLast?.or place) := by
  induction chained generalizing fuel place with
  | nil =>
    obtain ⟨fuel, rfl⟩ := Nat.exists_eq_succ_of_ne_zero (Nat.ne_zero_of_lt enough)
    rw [lastPlace, here]
    rfl
  | cons tail ih =>
    rename_i a rest
    obtain ⟨fuel, rfl⟩ := Nat.exists_eq_succ_of_ne_zero (Nat.ne_zero_of_lt enough)
    rw [lastPlace, here]
    dsimp only
    rw [ih rfl (Nat.lt_of_succ_lt_succ enough)]
    cases rest with
    | nil => rfl
    | cons b rest =>
      rfl

section Append

variable [DecidableEq α]

/-- Store a pointer at a place. -/
def store (next : α → Option α) (head : Option α) (place : Place α) (pointer : Option α) :
    Option α × (α → Option α) :=
  match place with
  | none => (pointer, next)
  | some a => (head, Function.update next a pointer)

theorem Chained.append_last {last : α} (chained : Chained next head list) (fresh : b ∉ list)
    (null : next b = none) (found : list.getLast? = some last) :
    Chained (Function.update next last (some b)) head (list ++ [b]) := by
  induction chained with
  | nil => cases found
  | cons tail ih =>
    rename_i a rest
    have once := (Chained.cons tail).nodup
    have other : b ≠ a := fun same => fresh (same ▸ List.mem_cons_self)
    refine Chained.cons ?_
    cases rest with
    | nil =>
      rw [List.getLast?_singleton, Option.some.injEq] at found
      rw [← found, Function.update_self]
      refine Chained.cons ?_
      rw [Function.update_of_ne other, null]
      exact Chained.nil
    | cons c rest =>
      have later : last ∈ c :: rest := List.mem_of_getLast? found
      have apart : a ≠ last := fun same => (List.nodup_cons.mp once).1 (same ▸ later)
      rw [Function.update_of_ne apart]
      exact ih (fun member => fresh (List.mem_cons_of_mem a member)) found

/-- A node whose own pointer is null goes to the end. -/
theorem Chained.append (chained : Chained next head list) (fresh : b ∉ list)
    (null : next b = none) :
    Chained (store next head list.getLast? (some b)).2 (store next head list.getLast? (some b)).1
      (list ++ [b]) := by
  cases found : list.getLast? with
  | none =>
    rw [List.getLast?_eq_none_iff.mp found]
    refine Chained.cons ?_
    change Chained next (next b) []
    rw [null]
    exact Chained.nil
  | some last => exact chained.append_last fresh null found

end Append

end Chain
