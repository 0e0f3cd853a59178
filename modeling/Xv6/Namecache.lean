import Mathlib.Data.List.FinRange
import Mathlib.Logic.Function.Basic
import Xv6.CString
import Xv6.Params

/- namecache.c: the name cache, without its counters. -/
namespace Xv6.Namecache

open CString

def NAMECACHE_SIZE : Nat := 32

instance : NeZero NAMECACHE_SIZE := ⟨by decide⟩

structure Entry where
  valid : Bool
  dev : Nat
  parentInum : Nat
  name : List UInt8
  inum : Nat

structure Cache where
  entries : Fin NAMECACHE_SIZE → Entry
  nextSlot : Fin NAMECACHE_SIZE

/-- The test the loops of `namecache_lookup` and `namecache_add` make. -/
def Entry.hits (e : Entry) (dev parentInum : Nat) (name : List UInt8) : Bool :=
  e.valid && e.dev == dev && e.parentInum == parentInum && strncmp e.name name DIRSIZ == 0

def find (c : Cache) (dev parentInum : Nat) (name : List UInt8) : Option (Fin NAMECACHE_SIZE) :=
  (List.finRange NAMECACHE_SIZE).find? fun i => (c.entries i).hits dev parentInum name

/-- The cache in zeroed memory, after `namecache_init`. -/
def namecacheInit : Cache := ⟨fun _ => ⟨false, 0, 0, [], 0⟩, 0⟩

/-- 0 if the name is not cached. -/
def namecacheLookup (c : Cache) (dev parentInum : Nat) (name : List UInt8) : Nat :=
  match find c dev parentInum name with
  | some i => (c.entries i).inum
  | none => 0

def namecacheAdd (c : Cache) (dev parentInum : Nat) (name : List UInt8) (inum : Nat) : Cache :=
  match find c dev parentInum name with
  | some i => { c with entries := Function.update c.entries i { c.entries i with inum := inum } }
  | none =>
    { entries := Function.update c.entries c.nextSlot
        ⟨true, dev, parentInum, strncpy name DIRSIZ, inum⟩
      nextSlot := c.nextSlot + 1 }

def namecacheInvalidate (c : Cache) (dev inum : Nat) : Cache :=
  { c with entries := fun i =>
      let e := c.entries i
      if e.valid ∧ e.dev = dev ∧ (e.inum = inum ∨ e.parentInum = inum) then
        { e with valid := false }
      else e }

def namecacheClear (c : Cache) : Cache :=
  { entries := fun i => { c.entries i with valid := false }, nextSlot := 0 }

section Entries

variable {c : Cache} {dev parentInum inum : Nat} {name : List UInt8} {good : Entry → Prop}

theorem Entry.hits_iff (e : Entry) : e.hits dev parentInum name = true ↔
    e.valid = true ∧ e.dev = dev ∧ e.parentInum = parentInum ∧
      fieldString DIRSIZ e.name = fieldString DIRSIZ name := by
  rw [Entry.hits]
  simp only [Bool.and_eq_true, beq_iff_eq, strncmp_eq_zero, and_assoc]

/-- Every valid entry of the cache satisfies `good`. -/
def Cache.All (good : Entry → Prop) (c : Cache) : Prop :=
  ∀ i, (c.entries i).valid = true → good (c.entries i)

theorem Cache.All.mono {better : Entry → Prop} (all : c.All good)
    (imply : ∀ e, e.valid = true → good e → better e) : c.All better :=
  fun i valid => imply _ valid (all i valid)

theorem all_namecacheInit (good : Entry → Prop) : namecacheInit.All good :=
  fun _ valid => Bool.noConfusion valid

/-- A lookup that finds something finds the inum of an entry for the name. -/
theorem Cache.All.lookup (all : c.All good) (hit : namecacheLookup c dev parentInum name ≠ 0) :
    ∃ e, good e ∧ e.hits dev parentInum name = true ∧
      e.inum = namecacheLookup c dev parentInum name := by
  unfold namecacheLookup at hit ⊢
  split at hit
  · rename_i i found
    have hits := List.find?_some found
    exact ⟨c.entries i, all i ((Entry.hits_iff _).mp hits).1, hits, rfl⟩
  · exact (hit rfl).elim

/-- After a miss no entry is for the name, unless it is one for inode 0. -/
theorem Cache.All.miss (all : c.All good) (nonzero : ∀ e, good e → e.inum ≠ 0)
    (miss : namecacheLookup c dev parentInum name = 0) :
    c.All fun e => good e ∧ e.hits dev parentInum name = false := by
  intro i valid
  refine ⟨all i valid, ?_⟩
  unfold namecacheLookup at miss
  split at miss
  · rename_i j found
    have hits := List.find?_some found
    exact (nonzero _ (all j ((Entry.hits_iff _).mp hits).1) miss).elim
  · rename_i none
    have missed := List.find?_eq_none.mp none i (List.mem_finRange i)
    exact Bool.eq_false_iff.mpr missed

/-- The name that was added last is found. -/
theorem namecacheLookup_add (c : Cache) (dev parentInum : Nat) (name : List UInt8) (inum : Nat) :
    namecacheLookup (namecacheAdd c dev parentInum name inum) dev parentInum name = inum := by
  unfold namecacheAdd
  split
  · rename_i i found
    have same : find { c with entries := Function.update c.entries i { c.entries i with inum :=
        inum } } dev parentInum name = some i := by
      rw [← found]
      unfold find
      congr 1
      funext j
      dsimp only
      by_cases here : j = i
      · rw [here, Function.update_self]
        rfl
      · rw [Function.update_of_ne here]
    grind [namecacheLookup, Function.update_self]
  · rename_i none
    have hits : (⟨true, dev, parentInum, strncpy name DIRSIZ, inum⟩ : Entry).hits dev parentInum
      name = true :=
      (Entry.hits_iff _).mpr ⟨rfl, rfl, rfl, fieldString_strncpy DIRSIZ name⟩
    unfold namecacheLookup
    split
    · rename_i i found
      have hit := List.find?_some found
      dsimp only at hit ⊢
      by_cases here : i = c.nextSlot
      · rw [here, Function.update_self]
      · rw [Function.update_of_ne here] at hit
        exact (List.find?_eq_none.mp none i (List.mem_finRange i) hit).elim
    · rename_i missed
      have miss := List.find?_eq_none.mp missed c.nextSlot (List.mem_finRange _)
      grind

/-- An added name adds one entry at most. -/
theorem Cache.All.add (all : c.All good)
    (new : ∀ e : Entry, e.hits dev parentInum name = true → e.inum = inum → good e) :
    (namecacheAdd c dev parentInum name inum).All good := by
  intro i valid
  unfold namecacheAdd at valid ⊢
  split at valid
  · rename_i j found
    have hits := List.find?_some found
    by_cases here : i = j
    · subst here
      simp only [Function.update_self]
      exact new _ hits rfl
    · simp only [Function.update_of_ne here] at valid ⊢
      exact all i valid
  · by_cases here : i = c.nextSlot
    · subst here
      simp only [Function.update_self]
      refine new _ ((Entry.hits_iff _).mpr ⟨rfl, rfl, rfl, ?_⟩) rfl
      exact fieldString_strncpy DIRSIZ name
    · simp only [Function.update_of_ne here] at valid ⊢
      exact all i valid

/-- Invalidation drops the entries that name the inode or stand in it. -/
theorem Cache.All.invalidate (all : c.All good) (dev inum : Nat) :
    (namecacheInvalidate c dev inum).All fun e =>
      good e ∧ (e.dev = dev → e.inum ≠ inum ∧ e.parentInum ≠ inum) := by
  intro i valid
  simp only [namecacheInvalidate] at valid ⊢
  split at valid
  · cases valid
  · rename_i other
    rw [if_neg other]
    refine ⟨all i valid, fun same => ?_⟩
    grind

/-- What is left when the names of two inodes were dropped. -/
theorem Cache.All.invalidate_both (all : c.All good) (I P : Nat)
    (same : ∀ e, good e → e.dev = dev) :
    (namecacheInvalidate (namecacheInvalidate c dev I) dev P).All
      fun e => good e ∧ ¬ (e.parentInum = I ∨ e.parentInum = P) := by
  refine ((all.invalidate dev I).invalidate dev P).mono fun e _ left => ⟨left.1.1, ?_⟩
  rintro (here | here)
  · exact (left.1.2 (same e left.1.1)).2 here
  · exact (left.2 (same e left.1.1)).2 here

end Entries

end Xv6.Namecache
