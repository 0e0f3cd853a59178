import Xv6.Lib.Contents
import Xv6.Vm

/- What a page directory maps, and the pages that belong to it: itself, its page tables, and the
pages of the user. -/
namespace Xv6.Vm

open Contents
open Fs (Block get32 set32 overwrite)

/-- Pages of the user part of an address space. -/
abbrev UPAGES : Nat := KERNBASE / PGSIZE

/-- The entries of a directory, and the pages of the user part. -/
@[irreducible] def pdes : Finset Nat := Finset.range NPDENTRIES
@[irreducible] def upages : Finset Nat := Finset.range UPAGES

theorem mem_pdes {i : Nat} : i ∈ pdes ↔ i < NPDENTRIES := by
  unfold pdes
  exact Finset.mem_range

theorem mem_upages {a : Nat} : a ∈ upages ↔ a < UPAGES := by
  unfold upages
  exact Finset.mem_range

section Words

/-- A directory or table entry, if its present bit is set. -/
def entry (word : Nat) : Option Nat := if word &&& PTE_P ≠ 0 then some word else none

/-- The page in such an entry. -/
def pageOf (word : Nat) : Nat := word / PGSIZE

@[simp] theorem entry_zero : entry 0 = none := rfl

theorem entry_eq_some {word v : Nat} : entry word = some v ↔ word &&& PTE_P ≠ 0 ∧ word = v := by
  grind [entry, Option.some.injEq]

theorem entry_eq_none {word : Nat} : entry word = none ↔ word &&& PTE_P = 0 := by
  unfold entry
  split
  · rename_i set
    exact ⟨nofun, fun clear => (set clear).elim⟩
  · rename_i clear
    exact ⟨fun _ => Decidable.not_not.mp clear, fun _ => rfl⟩

/-- The word for a page with these permissions. -/
def mapWord (n perm : Nat) : Nat := PGSIZE * n ||| perm ||| PTE_P

theorem mapWord_eq (n : Nat) {perm : Nat} (small : perm < PGSIZE) :
    mapWord n perm = PGSIZE * n + (perm ||| PTE_P) := by
  have fits : perm ||| PTE_P < 2 ^ 12 := Nat.or_lt_two_pow small (by decide)
  rw [mapWord, Nat.or_assoc]
  exact (Nat.two_pow_add_eq_or_of_lt fits n).symm

theorem mapWord_lt {n perm : Nat} (below : n < 2 ^ 20) (small : perm < PGSIZE) :
    mapWord n perm < 2 ^ 32 := by
  have fits : perm ||| PTE_P < 2 ^ 12 := Nat.or_lt_two_pow small (by decide)
  rw [mapWord_eq n small]
  simp only [PGSIZE]
  omega

theorem entry_mapWord (n perm : Nat) : entry (mapWord n perm) = some (mapWord n perm) := by
  refine entry_eq_some.mpr ⟨?_, rfl⟩
  grind [mapWord, Nat.or_eq_zero_iff]

theorem pageOf_mapWord (n : Nat) {perm : Nat} (small : perm < PGSIZE) :
    pageOf (mapWord n perm) = n := by
  have fits : perm ||| PTE_P < 2 ^ 12 := Nat.or_lt_two_pow small (by decide)
  rw [pageOf, mapWord_eq n small]
  simp only [PGSIZE]
  omega

theorem mapWord_mod (n : Nat) {perm : Nat} (small : perm < PGSIZE) :
    mapWord n perm % PGSIZE = perm ||| PTE_P := by
  have fits : perm ||| PTE_P < 2 ^ 12 := Nat.or_lt_two_pow small (by decide)
  rw [mapWord_eq n small]
  simp only [PGSIZE]
  omega

end Words

section Views

variable (mem : Nat → Block) (d : Nat)

/-- The page table of entry `i` of the directory. -/
def tableOf (i : Nat) : Option Nat := (entry (get32 (mem d) i)).map pageOf

/-- The entry for page `a` of the address space. -/
def entryAt (a : Nat) : Option Nat :=
  (tableOf mem d (a / NPTENTRIES)).bind fun t => entry (get32 (mem t) (a % NPTENTRIES))

/-- The page that it is mapped to. -/
def pageAt (a : Nat) : Option Nat := (entryAt mem d a).map pageOf

/-- The directory and its page tables. -/
def frames : Multiset Nat := {d} + contents pdes (tableOf mem d)

/-- The pages of the user. -/
def leaves : Multiset Nat := contents upages (pageAt mem d)

def space : Multiset Nat := frames mem d + leaves mem d

end Views

section Effects

variable {mem mem' : Nat → Block} {d t i a b v n : Nat}

theorem self_mem_frames :
    d ∈ frames mem d := Multiset.mem_add.mpr (Or.inl (Multiset.mem_singleton_self d))

theorem table_mem_frames (small : i < NPDENTRIES) (here : tableOf mem d i = some t) :
    t ∈ frames mem d :=
  Multiset.mem_add.mpr (Or.inr (mem_contents.mpr ⟨i, mem_pdes.mpr small, here⟩))

theorem page_mem_leaves (small : a < UPAGES) (here : pageAt mem d a = some n) : n ∈ leaves mem d :=
  mem_contents.mpr ⟨a, mem_upages.mpr small, here⟩

theorem tableOf_congr (same : mem' d = mem d) : tableOf mem' d = tableOf mem d := by
  funext i
  rw [tableOf, tableOf, same]

theorem frames_congr (same : mem' d = mem d) : frames mem' d = frames mem d := by
  rw [frames, frames, tableOf_congr same]

/-- An address space is in its directory and its page tables. -/
theorem entryAt_congr (same : ∀ n ∈ frames mem d, mem' n = mem n) (small : a < 2 ^ 20) :
    entryAt mem' d a = entryAt mem d a := by
  rw [entryAt, entryAt, tableOf_congr (same d self_mem_frames)]
  cases here : tableOf mem d (a / NPTENTRIES) with
  | none => rfl
  | some t =>
    have inside : a / NPTENTRIES < NPDENTRIES := by
      simp only [NPTENTRIES, NPDENTRIES]
      omega
    rw [Option.bind_some, Option.bind_some, same t (table_mem_frames inside here)]

theorem leaves_congr (same : ∀ a < UPAGES, entryAt mem' d a = entryAt mem d a) :
    leaves mem' d = leaves mem d := by
  refine contents_congr fun a inside => ?_
  rw [pageAt, pageAt, same a (mem_upages.mp inside)]

theorem UPAGES_lt : UPAGES < 2 ^ 20 := by decide

theorem space_congr (same : ∀ n ∈ frames mem d, mem' n = mem n) : space mem' d = space mem d := by
  rw [space, space, frames_congr (same d self_mem_frames),
    leaves_congr fun a small => entryAt_congr same (small.trans UPAGES_lt)]

/-- The directory is none of its page tables. -/
theorem table_ne_self (once : (frames mem d).Nodup) (small : i < NPDENTRIES)
    (here : tableOf mem d i = some t) :
    t ≠ d := by
  rintro rfl
  exact Multiset.disjoint_left.mp (Multiset.nodup_add.mp once).2.2 (Multiset.mem_singleton_self t)
    (mem_contents.mpr ⟨i, mem_pdes.mpr small, here⟩)

section Blank

variable (blank : mem d = fun _ => 0)

include blank

theorem tableOf_blank (i : Nat) : tableOf mem d i = none := by
  rw [tableOf, blank, Fs.get32_zero]
  rfl

theorem frames_blank : frames mem d = {d} := by
  rw [frames, contents_empty fun i _ => tableOf_blank blank i, add_zero]

theorem entryAt_blank (a : Nat) : entryAt mem d a = none := by
  rw [entryAt, tableOf_blank blank]
  rfl

end Blank

section SetEntry

variable (once : (frames mem d).Nodup) (small : a < 2 ^ 20)
  (here : tableOf mem d (a / NPTENTRIES) = some t)

include once small here

theorem frames_setEntry :
    frames (Function.update mem t (set32 (mem t) (a % NPTENTRIES) v)) d = frames mem d := by
  have inside : a / NPTENTRIES < NPDENTRIES := by
    simp only [NPTENTRIES, NPDENTRIES]
    omega
  exact frames_congr (Function.update_of_ne (table_ne_self once inside here).symm _ _)

/-- Entry `a` is set to the word. -/
theorem entryAt_setEntry (fits : v < 2 ^ 32) (within : b < 2 ^ 20) :
    entryAt (Function.update mem t (set32 (mem t) (a % NPTENTRIES) v)) d b =
      if b = a then entry v else entryAt mem d b := by
  have inside : a / NPTENTRIES < NPDENTRIES := by
    simp only [NPTENTRIES, NPDENTRIES]
    omega
  have inside' : b / NPTENTRIES < NPDENTRIES := by
    simp only [NPTENTRIES, NPDENTRIES]
    omega
  rw [entryAt, entryAt, tableOf_congr (Function.update_of_ne
    (table_ne_self once inside here).symm _ _)]
  cases there : tableOf mem d (b / NPTENTRIES) with
  | none =>
    rw [if_neg]
    · rfl
    · grind
  | some u =>
    rw [Option.bind_some, Option.bind_some]
    by_cases same : u = t
    · subst same
      have index : b / NPTENTRIES = a / NPTENTRIES :=
        contents_inj (Multiset.nodup_add.mp once).2.1 (mem_pdes.mpr inside')
          (mem_pdes.mpr inside) there here
      rw [Function.update_self]
      by_cases at' : b = a
      · rw [if_pos at', at', Fs.get32_set32_self _ _ _ fits]
      · have apart : b % NPTENTRIES ≠ a % NPTENTRIES := by grind
        rw [if_neg at', Fs.get32_set32_of_ne _ _ apart]
    · grind

end SetEntry

section Install

/-- The memory with a new, empty page table `t` for entry `i` of the directory. -/
def installed (mem : Nat → Block) (d i t : Nat) : Nat → Block :=
  Function.update (Function.update mem t fun _ => 0) d
    (set32 (mem d) i (PGSIZE * t ||| PTE_P ||| PTE_W ||| PTE_U))

variable (fresh : t ∉ frames mem d) (below : t < 2 ^ 20) (absent : tableOf mem d i = none)

theorem tableWord_eq (t : Nat) :
    PGSIZE * t ||| PTE_P ||| PTE_W ||| PTE_U = mapWord t (PTE_W ||| PTE_U) := by
  rw [mapWord, Nat.or_assoc, Nat.or_assoc, Nat.or_assoc]
  rfl

include below in
theorem tableOf_installed (j : Nat) :
    tableOf (installed mem d i t) d j = Function.update (tableOf mem d) i (some t) j := by
  have small : PTE_W ||| PTE_U < PGSIZE := by decide
  rw [tableOf, installed, Function.update_self, tableWord_eq]
  by_cases here : j = i
  · rw [here, Function.update_self, Fs.get32_set32_self _ _ _ (mapWord_lt below small),
      entry_mapWord t, Option.map_some, pageOf_mapWord t small]
  · rw [Function.update_of_ne here, Fs.get32_set32_of_ne _ _ here]
    rfl

include below absent in
theorem frames_installed (small : i < NPDENTRIES) :
    frames (installed mem d i t) d = frames mem d + {t} := by
  have tables : contents pdes (tableOf (installed mem d i t) d) =
      contents pdes (tableOf mem d) + {t} := by
    rw [← contents_put (mem_pdes.mpr small) absent t]
    exact contents_congr fun j _ => tableOf_installed below j
  rw [frames, frames, tables, add_assoc]

include fresh below absent in
theorem entryAt_installed (once : (frames mem d).Nodup) (within : b < 2 ^ 20) :
    entryAt (installed mem d i t) d b = entryAt mem d b := by
  have inside : b / NPTENTRIES < NPDENTRIES := by
    simp only [NPTENTRIES, NPDENTRIES]
    omega
  have apart : t ≠ d := fun same => fresh (same ▸ self_mem_frames)
  rw [entryAt, entryAt, tableOf_installed below]
  by_cases here : b / NPTENTRIES = i
  · simp [Function.update_self, Option.bind_some, installed, Function.update_of_ne, Fs.get32_zero,
      here, absent, apart]
  · rw [Function.update_of_ne here]
    cases there : tableOf mem d (b / NPTENTRIES) with
    | none => rfl
    | some u =>
      have member : u ∈ frames mem d := table_mem_frames inside there
      have other : u ≠ t := fun same => fresh (same ▸ member)
      have self : u ≠ d := table_ne_self once inside there
      rw [Option.bind_some, Option.bind_some, installed, Function.update_of_ne self,
        Function.update_of_ne other]

end Install

end Effects

end Xv6.Vm
