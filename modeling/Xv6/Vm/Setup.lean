import Xv6.Vm.Grow

/- A page directory from its making, with what every page table maps for the kernel, to its end. -/
namespace Xv6.Vm

open Exec hiding panic
open Contents
open Fs (Block get32 set32 overwrite)

variable {L : Layout} {allowed : Stops} {s s' s1 s2 : State} {d n a b lo hi : Nat}
  {R : Multiset Nat}

section Free

/-- The page tables of these entries of the directory. -/
def tables (mem : Nat → Block) (d : Nat) (entries : List Nat) : Multiset Nat :=
  (entries.map fun i => one (tableOf mem d i)).sum

theorem frames_eq (mem : Nat → Block) (d : Nat) :
    frames mem d = {d} + tables mem d (List.range NPDENTRIES) := by
  unfold frames pdes tables
  rw [contents_range]

theorem freevm_loop (entries : List Nat)
    (good : Good L (s.free + tables s.mem d entries + ({d} + R))) :
    Spec allowed (freevm.loop L d entries) s fun _ s' =>
      s'.free = s.free + tables s.mem d entries ∧ ∀ n ∈ {d} + R, s'.mem n = s.mem n := by
  induction entries generalizing s with
  | nil => exact Spec.pure ⟨(add_zero _).symm, fun _ _ => rfl⟩
  | cons i rest ih =>
    have split : tables s.mem d (i :: rest) = one (tableOf s.mem d i) + tables s.mem d rest := by
      rfl
    rw [split] at good ⊢
    refine Spec.bind_get ?_
    dsimp only
    unfold when
    by_cases set : get32 (s.mem d) i &&& PTE_P ≠ 0
    · have table : tableOf s.mem d i = some (get32 (s.mem d) i / PGSIZE) := by
        rw [tableOf, entry_eq_some.mpr ⟨set, rfl⟩]
        rfl
      generalize get32 (s.mem d) i / PGSIZE = t at *
      rw [table, one] at good ⊢
      rw [if_pos set]
      refine Spec.bind (kfree_spec (good.left.pick
        (Multiset.mem_add.mpr (Or.inl (Multiset.mem_singleton_self t))))) ?_
      rintro _ s1 ⟨mem, freed⟩
      have frame : ∀ n ∈ {d} + R, s1.mem n = s.mem n := by
        intro n member
        have other : n ≠ t := by grind [Good.apart, Multiset.mem_singleton_self]
        rw [mem, Function.update_of_ne other]
      have same : tables s1.mem d rest = tables s.mem d rest := by
        unfold tables
        rw [tableOf_congr (frame d (Multiset.mem_add.mpr (Or.inl (Multiset.mem_singleton_self d))))]
      have good1 : Good L (s1.free + tables s1.mem d rest + ({d} + R)) := by grind
      refine Spec.mono (ih good1) ?_
      rintro _ s' ⟨free, frame'⟩
      refine ⟨?_, fun n member => (frame' n member).trans (frame n member)⟩
      rw [free, freed, same, add_assoc]
    · have table : tableOf s.mem d i = none := by
        rw [tableOf, entry_eq_none.mpr (Decidable.not_not.mp set)]
        rfl
      grind [one, zero_add]

theorem leaves_empty {mem : Nat → Block} (empty : ∀ b < UPAGES, entryAt mem d b = none) :
    leaves mem d = 0 := by
  refine contents_empty fun b inside => ?_
  rw [pageAt, empty b (mem_upages.mp inside)]
  rfl

/-- All pages of the address space are free. -/
theorem freevm_spec (lay : L.Fits) (good : Good L (s.free + space s.mem d + R)) :
    Spec allowed (freevm L d) s fun _ s' => s'.free = s.free + space s.mem d ∧ ∀ n ∈ R,
      s'.mem n = s.mem n := by
  have usable : L.Usable d := good.left.right.left.usable d self_mem_frames
  unfold freevm
  rw [if_neg (lay.ne_zero usable)]
  refine Spec.bind (deallocuvm_spec lay good (Nat.le_refl _)) ?_
  rintro _ s1 ⟨_, shrunk⟩
  have gone : leaves s1.mem d = 0 := leaves_empty fun b within =>
    shrunk.gone b (Nat.zero_le b) within
  have pages := shrunk.moved.pages
  have good1 := shrunk.moved.good good
  rw [space, gone, add_zero, frames_eq] at pages good1
  have share : Good L (s1.free + tables s1.mem d (List.range NPDENTRIES) + ({d} + R)) := by
    rw [show s1.free + tables s1.mem d (List.range NPDENTRIES) + ({d} + R) =
      s1.free + ({d} + tables s1.mem d (List.range NPDENTRIES)) + R by abel]
    exact good1
  refine Spec.bind (freevm_loop _ share) ?_
  rintro _ s2 ⟨free, frame⟩
  rw [← free] at share
  refine Spec.mono (kfree_spec (share.pick
    (Multiset.mem_add.mpr (Or.inl (Multiset.mem_singleton_self d))))) ?_
  rintro _ s3 ⟨mem, freed⟩
  refine ⟨?_, fun n member => ?_⟩
  · rw [freed, free, ← pages]
    abel
  · have other : n ≠ d := by
      rintro rfl
      exact good.apart (Multiset.mem_add.mpr
        (Or.inr (Multiset.mem_add.mpr (Or.inl self_mem_frames)))) member
    rw [mem, Function.update_of_ne other, frame n (Multiset.mem_add.mpr (Or.inr member)),
      shrunk.moved.frame n member]

end Free

section Kernel

/-- Its first page, the page of memory for that, and how many there are. -/
def Kmap.first (k : Kmap) : Nat := k.virt / PGSIZE
def Kmap.page (k : Kmap) : Nat := k.physStart / PGSIZE
def Kmap.count (k : Kmap) : Nat := sub32 k.physEnd k.physStart / PGSIZE

/-- The entry that the row makes for page `b`. -/
def Kmap.entryFor (k : Kmap) (b : Nat) : Option Nat :=
  if k.first ≤ b ∧ b < k.first + k.count then some (mapWord (k.page + (b - k.first)) k.perm)
  else none

/-- The entry that `kmap` makes for page `b`. -/
def Layout.entryFor (L : Layout) (b : Nat) : Option Nat := L.kmap.findSome? fun k => k.entryFor b

/-- A row is whole pages above the user part. -/
structure Kmap.Sound (k : Kmap) : Prop where
  virt : k.virt % PGSIZE = 0
  phys : k.physStart % PGSIZE = 0
  size : sub32 k.physEnd k.physStart % PGSIZE = 0
  some : 0 < k.count
  above : UPAGES ≤ k.first
  room : k.first + k.count ≤ 2 ^ 20
  memory : k.page + k.count ≤ 2 ^ 20
  perm : k.perm < PGSIZE
  hidden : k.perm &&& PTE_U = 0

structure Layout.Sound (L : Layout) : Prop extends L.Fits where
  rows : ∀ k ∈ L.kmap, k.Sound
  apart : L.kmap.Pairwise fun k k' => ∀ b, k.entryFor b = none ∨ k'.entryFor b = none

/-- The linker puts `data` on a page boundary between the text of the kernel and the end of
memory. -/
theorem layout_sound {data kernelEnd : Nat} (aligned : data % PGSIZE = 0) (low : KERNLINK < data)
    (high : data < KERNBASE + PHYSTOP) (loaded : KERNBASE < kernelEnd) :
    (layout data kernelEnd).Sound := by
  have rows : ∀ k ∈ (layout data kernelEnd).kmap, k.Sound := by
    intro k member
    simp only [layout, List.mem_cons, List.not_mem_nil, or_false] at member
    rcases member with rfl | rfl | rfl | rfl
    · exact ⟨by decide, by decide, by decide,
        by decide, by decide, by decide, by decide, by decide, by decide⟩
    · refine ⟨?_, ?_, ?_, ?_, ?_, ?_, ?_, show 0 <
        PGSIZE by decide, show 0 &&& PTE_U = 0 by decide⟩ <;>
        simp only [Kmap.first, Kmap.page, Kmap.count, V2P, sub32, KERNLINK, KERNBASE, EXTMEM,
        PHYSTOP, PGSIZE, UPAGES] at * <;> omega
    · refine ⟨?_, ?_, ?_, ?_, ?_, ?_, ?_, show PTE_W <
        PGSIZE by decide, show PTE_W &&& PTE_U = 0 by decide⟩ <;>
        simp only [Kmap.first, Kmap.page, Kmap.count, V2P, sub32, KERNLINK, KERNBASE, EXTMEM,
        PHYSTOP, PGSIZE, UPAGES] at * <;> omega
    · exact ⟨by decide, by decide, by decide,
        by decide, by decide, by decide, by decide, by decide, by decide⟩
  refine ⟨⟨loaded, show KERNBASE + PHYSTOP ≤ DEVSPACE by decide⟩, rows, ?_⟩
  have apart : ∀ {k k' : Kmap}, k.first + k.count ≤ k'.first → ∀ b, k.entryFor b = none ∨
    k'.entryFor b = none := by
    intro k k' behind b
    by_cases here : k.first ≤ b ∧ b < k.first + k.count
    · exact Or.inr (if_neg (by omega))
    · exact Or.inl (if_neg here)
  simp only [layout, List.pairwise_cons, List.mem_cons, List.not_mem_nil, or_false,
    forall_eq_or_imp, forall_eq, List.Pairwise.nil, and_true, IsEmpty.forall_iff, implies_true]
  refine ⟨⟨apart ?_, apart ?_, apart ?_⟩, ⟨apart ?_, apart ?_⟩, apart ?_⟩ <;>
    simp only [Kmap.first, Kmap.count, V2P, sub32, KERNLINK, KERNBASE, EXTMEM, PHYSTOP, DEVSPACE,
    PGSIZE] at * <;> omega

/-- A row is mapped whole, or there are not enough pages for its page tables. -/
theorem mappages_row {k : Kmap} (lay : L.Fits) (sound : k.Sound)
    (good : Good L (s.free + frames s.mem d + R))
    (empty : ∀ b < 2 ^ 20, k.entryFor b ≠ none → entryAt s.mem d b = none) :
    Spec allowed (mappages d k.virt (sub32 k.physEnd k.physStart) k.physStart k.perm) s fun r s' =>
      s'.free + frames s'.mem d = s.free + frames s.mem d ∧ (∀ n ∈ R, s'.mem n = s.mem n) ∧
        (∀ b < UPAGES, entryAt s'.mem d b = entryAt s.mem d b) ∧
        (r < 0 ∨ r = 0 ∧ ∀ b < 2 ^ 20, entryAt s'.mem d b = (k.entryFor b).or
        (entryAt s.mem d b)) := by
  obtain ⟨virt, phys, size, some, above, room, memory, perm, _⟩ := sound
  have start : k.virt = PGSIZE * k.first := by
    simp only [Kmap.first, PGSIZE] at *
    omega
  have page : k.physStart = PGSIZE * k.page := by
    simp only [Kmap.page, PGSIZE] at *
    omega
  have bytes : sub32 k.physEnd k.physStart = PGSIZE * (k.count - 1 + 1) := by
    simp only [Kmap.count, PGSIZE] at *
    omega
  rw [start, bytes, page]
  refine Spec.mono (mappages_spec lay perm good (by omega) (by omega) fun b low high => ?_) ?_
  · refine empty b (by omega) ?_
    rw [Kmap.entryFor, if_pos (by omega)]
    exact Option.some_ne_none _
  · rintro r s' ⟨j, most, mapped, result⟩
    refine ⟨mapped.pages, mapped.frame, fun b within => ?_, ?_⟩
    · rw [mapped.entries b (by omega), if_neg (by omega)]
    · rcases result with ⟨zero, all⟩ | ⟨failed, _⟩
      · refine Or.inr ⟨zero, fun b within => ?_⟩
        rw [mapped.entries b within, Kmap.entryFor]
        by_cases here : k.first ≤ b ∧ b < k.first + k.count
        · rw [if_pos here, if_pos (by omega), Option.some_or]
        · rw [if_neg here, if_neg (by omega), Option.none_or]
      omega

end Kernel

section Setup

/-- A new address space `d`, of pages that were free, with what `kmap` has. -/
structure Image (L : Layout) (s s' : State) (d : Nat) (R : Multiset Nat) : Prop where
  pages : s'.free + space s'.mem d = s.free
  kernel : ∀ b, UPAGES ≤ b → b < 2 ^ 20 → entryAt s'.mem d b = L.entryFor b
  frame : ∀ n ∈ R, s'.mem n = s.mem n

theorem Image.good (image : Image L s s' d R) (good : Good L (s.free + R)) :
    Good L (s'.free + space s'.mem d + R) := by
  rw [image.pages]
  exact good

theorem Image.moved (image : Image L s s1 d R) (moved : Moved s1 s2 d R lo hi)
    (user : hi ≤ UPAGES) : Image L s s2 d R := by
  refine ⟨moved.pages.trans image.pages, fun b above within => ?_,
    fun n member => (moved.frame n member).trans (image.frame n member)⟩
  rw [moved.kept b within (by omega)]
  exact image.kernel b above within

/-- The loop of `setupkvm` from a directory without user pages. -/
theorem setupkvm_loop (lay : L.Fits) (rows : List Kmap) (sound : ∀ k ∈ rows, k.Sound)
    (apart : rows.Pairwise fun k k' => ∀ b, k.entryFor b = none ∨ k'.entryFor b = none)
    (good : Good L (s.free + frames s.mem d + R)) (user : ∀ b < UPAGES, entryAt s.mem d b = none)
    (empty : ∀ b < 2 ^ 20, ∀ k ∈ rows, k.entryFor b ≠ none → entryAt s.mem d b = none) :
    Spec allowed (setupkvm.loop L d rows) s fun r s' => (∀ n ∈ R, s'.mem n = s.mem n) ∧
      (r = 0 ∧ s'.free = s.free + frames s.mem d ∨
        r = d ∧ s'.free + frames s'.mem d = s.free + frames s.mem d ∧
          (∀ b < UPAGES, entryAt s'.mem d b = none) ∧
          ∀ b < 2 ^ 20, entryAt s'.mem d b = (rows.findSome? fun k => k.entryFor b).or
            (entryAt s.mem d b)) := by
  induction rows generalizing s with
  | nil =>
    refine Spec.pure ⟨fun _ _ => rfl, Or.inr ⟨rfl, rfl, user, fun b _ => ?_⟩⟩
    rw [List.findSome?_nil, Option.none_or]
  | cons k rest ih =>
    have row := sound k List.mem_cons_self
    refine Spec.bind (mappages_row lay row good fun b within =>
      empty b within k List.mem_cons_self) ?_
    rintro r s1 ⟨pages, frame, same, result⟩
    have user1 : ∀ b < UPAGES, entryAt s1.mem d b = none := by
      intro b within
      rw [same b within]
      exact user b within
    have good1 : Good L (s1.free + frames s1.mem d + R) := by
      rw [pages]
      exact good
    rcases result with failed | ⟨zero, mapped⟩
    · rw [if_pos failed]
      have whole : space s1.mem d = frames s1.mem d := by rw [space, leaves_empty user1, add_zero]
      refine Spec.bind (freevm_spec lay (whole ▸ good1)) ?_
      rintro _ s' ⟨free, frame'⟩
      refine Spec.pure ⟨fun n member => (frame' n member).trans (frame n member), Or.inl ⟨rfl, ?_⟩⟩
      rw [free, whole, pages]
    · rw [zero, if_neg (by decide)]
      have others := List.pairwise_cons.mp apart
      refine Spec.mono (ih (fun k' member => sound k' (List.mem_cons_of_mem k member)) others.2
        good1 user1 ?_) ?_
      · intro b within k' member here
        have free := (others.1 k' member b).resolve_right here
        rw [mapped b within, free, Option.none_or]
        exact empty b within k' (List.mem_cons_of_mem k member) here
      · rintro r s' ⟨frame', result⟩
        refine ⟨fun n member => (frame' n member).trans (frame n member), ?_⟩
        rcases result with ⟨failed, free⟩ | ⟨done, pages', user', entries⟩
        · exact Or.inl ⟨failed, free.trans pages⟩
        · refine Or.inr ⟨done, pages'.trans pages, user', fun b within => ?_⟩
          rw [entries b within, mapped b within, List.findSome?_cons]
          cases here : k.entryFor b with
          | none => rfl
          | some w =>
            have none : (rest.findSome? fun k => k.entryFor b) = none := by
              refine List.findSome?_eq_none_iff.mpr fun k' member => ?_
              refine (others.1 k' member b).resolve_left ?_
              rw [here]
              exact Option.some_ne_none w
            rw [none]
            rfl

/-- `setupkvm` makes an address space for the kernel only, or leaves no trace. -/
theorem setupkvm_spec (lay : L.Sound) (good : Good L (s.free + R)) :
    Spec allowed (setupkvm L) s fun r s' =>
    r = 0 ∧ s'.free = s.free ∧ (∀ n ∈ R, s'.mem n = s.mem n) ∨
      r ≠ 0 ∧ Image L s s' r R ∧ ∀ b < UPAGES, entryAt s'.mem r b = none := by
  refine Spec.bind (kalloc_spec s) ?_
  rintro r s1 ⟨mem, taken⟩
  cases r with
  | none =>
    rw [one, add_zero] at taken
    exact Spec.pure (Or.inl ⟨rfl, taken, fun n _ => by rw [mem]⟩)
  | some d =>
    have took : Took s (s1.putPage d fun _ => 0) d fun _ => 0 := Took.of_kalloc mem taken
    have usable : L.Usable d := good.left.usable d took.member
    refine Spec.bind_modify ?_
    change Spec allowed _ (s1.putPage d fun _ => 0) _
    generalize s1.putPage d (fun _ => 0) = s2 at took
    have memory := lay.memory
    rw [if_neg (by omega)]
    have single : frames s2.mem d = {d} := frames_blank took.here
    have frame : ∀ n ∈ R, s2.mem n = s.mem n := by
      intro n member
      refine took.others n fun equal => good.apart took.member ?_
      rw [← equal]
      exact member
    have blank : ∀ b, entryAt s2.mem d b = none := entryAt_blank took.here
    have good2 : Good L (s2.free + frames s2.mem d + R) := by
      rw [single, took.free]
      exact good
    refine Spec.mono (setupkvm_loop lay.toFits L.kmap lay.rows lay.apart good2 (fun b _ => blank b)
      fun b _ _ _ _ => blank b) ?_
    rintro r s' ⟨frame', result⟩
    have rest : ∀ n ∈ R, s'.mem n = s.mem n := fun n member => (frame' n member).trans
      (frame n member)
    rw [single, took.free] at result
    rcases result with ⟨failed, free⟩ | ⟨rfl, pages, user, entries⟩
    · exact Or.inl ⟨failed, free, rest⟩
    · refine Or.inr ⟨lay.ne_zero usable, ⟨?_, fun b _ within => ?_, rest⟩, user⟩
      · rw [space, leaves_empty user, add_zero, pages]
      · rw [entries b within, blank, Option.or_none]
        rfl

end Setup

/-- A kernel that maps two pages for itself. -/
def bareKernel : Layout where
  kernelEnd := KERNBASE + 0x400000
  phystop := PHYSTOP
  kmap := [⟨KERNBASE, 0, 2 * PGSIZE, PTE_W⟩]

theorem bareKernel_sound : bareKernel.Sound := by
  refine ⟨⟨by decide, by decide⟩, fun k member => ?_, List.pairwise_singleton _ _⟩
  obtain rfl := List.mem_singleton.mp member
  exact ⟨by decide, by decide, by decide,
    by decide, by decide, by decide, by decide, by decide, by decide⟩

end Xv6.Vm
