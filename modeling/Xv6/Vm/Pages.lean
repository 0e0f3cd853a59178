import Xv6.Vm.Space

/- What the functions of kalloc.c and vm.c do to the pages and to the page tables. Each has a
share of the pages and leaves the rest `R` alone. -/
namespace Xv6.Vm

open Exec hiding panic
open Contents
open Fs (Block get32 set32 overwrite)

/-- The pages that `kfree` takes. -/
def Layout.Usable (L : Layout) (n : Nat) : Prop :=
  L.kernelEnd ≤ KERNBASE + PGSIZE * n ∧ PGSIZE * n < L.phystop

/-- What the code relies on: page 0 is not free memory, and the memory ends below the devices. -/
structure Layout.Fits (L : Layout) : Prop where
  kernel : KERNBASE < L.kernelEnd
  memory : KERNBASE + L.phystop ≤ DEVSPACE

/-- No page is counted twice, and all are such that `kfree` takes them. -/
structure Good (L : Layout) (pages : Multiset Nat) : Prop where
  once : pages.Nodup
  usable : ∀ n ∈ pages, L.Usable n

section Sharing

variable {L : Layout} {a b c : Multiset Nat} {n : Nat}

theorem Layout.Fits.ne_zero (fits : L.Fits) (usable : L.Usable n) : n ≠ 0 := by
  rintro rfl
  have kernel := fits.kernel
  have low := usable.1
  omega

theorem Layout.Fits.lt (fits : L.Fits) (usable : L.Usable n) : n < 2 ^ 20 := by
  have memory := fits.memory
  have high := usable.2
  simp only [KERNBASE, DEVSPACE, PGSIZE] at memory high
  omega

theorem Good.mono (good : Good L b) (less : a ≤ b) : Good L a :=
  ⟨Multiset.nodup_of_le less good.once, fun n member =>
    good.usable n (Multiset.mem_of_le less member)⟩

theorem Good.left (good : Good L (a + b)) : Good L a := good.mono (Multiset.le_add_right a b)

theorem Good.right (good : Good L (a + b)) : Good L b := good.mono (Multiset.le_add_left b a)

theorem Good.apart (good : Good L (a + b)) (left : n ∈ a) : n ∉ b :=
  fun right => Multiset.disjoint_left.mp (Multiset.nodup_add.mp good.once).2.2 left right

/-- One page of what is shared. -/
theorem Good.pick (good : Good L (a + b)) (member : n ∈ b) : Good L (a + {n}) :=
  good.mono (Multiset.add_le_add_left (Multiset.singleton_le.mpr member))

theorem Good.pick_other (good : Good L (a + b + c)) (member : n ∈ c) : Good L (a + {n}) :=
  (good.pick member).mono (Multiset.add_le_add_right (Multiset.le_add_right a b))

end Sharing

variable {L : Layout} {allowed : Stops} {s s' s1 s2 : State} {d n va : Nat} {R : Multiset Nat}

section Allocator

/-- The free pages. -/
def State.free (s : State) : Multiset Nat := ↑s.freelist

/-- The state with another page, and with another word in a page. -/
def State.putPage (s : State) (n : Nat) (page : Block) : State :=
  { s with mem := Function.update s.mem n page }
def State.putWord (s : State) (n i v : Nat) : State := s.putPage n (set32 (s.mem n) i v)

theorem kalloc_spec (s : State) : Spec allowed kalloc s fun r s' =>
    s'.mem = s.mem ∧ s'.free + one r = s.free := by
  refine Spec.bind_get ?_
  split
  · exact Spec.bind_modify (Spec.pure ⟨rfl, add_zero _⟩)
  split
  · exact Spec.bind_modify (Spec.pure ⟨rfl, add_zero _⟩)
  · rename_i n rest list
    refine Spec.bind_modify (Spec.pure ⟨rfl, ?_⟩)
    change (↑rest : Multiset Nat) + {n} = ↑s.freelist
    rw [list, add_comm]
    rfl

/-- The callers free a page only when it is not free. -/
theorem kfree_spec (good : Good L (s.free + {n})) : Spec allowed (kfree L n) s fun _ s' =>
    s'.mem = Function.update s.mem n (fun _ => 1) ∧ s'.free = s.free + {n} := by
  have usable := good.right.usable n (Multiset.mem_singleton_self n)
  unfold kfree
  rw [if_neg (by have low := usable.1; have high := usable.2; omega)]
  refine Spec.bind_modify (Spec.modify ⟨rfl, ?_⟩)
  rw [add_comm]
  rfl

end Allocator

section Walk

theorem PDX_eq (small : va < 2 ^ 32) : PDX va = va / PGSIZE / NPTENTRIES := by
  simp only [PDX, PGSIZE, NPTENTRIES]
  omega

theorem PTX_eq (va : Nat) : PTX va = va / PGSIZE % NPTENTRIES := rfl

theorem PDX_lt (va : Nat) : PDX va < NPDENTRIES := by
  simp only [PDX, NPDENTRIES]
  omega

/-- `walkpgdir` without `alloc` only looks. -/
theorem walkpgdir_finds (d : Nat) (small : va < 2 ^ 32) :
    Spec allowed (walkpgdir d va false) s fun r s' =>
    s' = s ∧ r = (tableOf s.mem d (va / PGSIZE / NPTENTRIES)).map fun t =>
      (t, va / PGSIZE % NPTENTRIES) := by
  refine Spec.bind_get ?_
  rw [← PDX_eq small, ← PTX_eq, tableOf]
  dsimp only
  split
  · rename_i set
    refine Spec.pure ⟨rfl, ?_⟩
    rw [entry_eq_some.mpr ⟨set, rfl⟩]
    rfl
  · rename_i clear
    refine Spec.pure ⟨rfl, ?_⟩
    rw [entry_eq_none.mpr (Decidable.not_not.mp clear)]
    rfl

/-- It finds the word of the entry, if there is one. -/
theorem walkpgdir_reads (d : Nat) (small : va < 2 ^ 32) :
    Spec allowed (walkpgdir d va false) s fun r s' => s' = s ∧
    match entryAt s.mem d (va / PGSIZE) with
    | none => ∀ pte, r = some pte → get32 (s.mem pte.1) pte.2 &&& PTE_P = 0
    | some w => ∃ t, tableOf s.mem d (va / PGSIZE / NPTENTRIES) = some t ∧
        r = some (t, va / PGSIZE % NPTENTRIES) ∧
        get32 (s.mem t) (va / PGSIZE % NPTENTRIES) = w ∧ w &&& PTE_P ≠ 0 := by
  refine Spec.mono (walkpgdir_finds d small) ?_
  rintro r s' ⟨same, found⟩
  refine ⟨same, ?_⟩
  rw [found]
  cases here : entryAt s.mem d (va / PGSIZE) with
  | none =>
    rintro pte there
    obtain ⟨t, table, rfl⟩ := Option.map_eq_some_iff.mp there
    rw [entryAt, table, Option.bind_some] at here
    exact entry_eq_none.mp here
  | some w =>
    obtain ⟨t, table, word⟩ := Option.bind_eq_some_iff.mp here
    obtain ⟨set, equal⟩ := entry_eq_some.mp word
    rw [equal] at set
    exact ⟨t, table, by rw [table, Option.map_some], equal, set⟩

/-- New page tables came from the free list, and no entry changed. -/
structure Walked (s s' : State) (d : Nat) (R : Multiset Nat) : Prop where
  pages : s'.free + frames s'.mem d = s.free + frames s.mem d
  entries : ∀ a < 2 ^ 20, entryAt s'.mem d a = entryAt s.mem d a
  frame : ∀ n ∈ R, s'.mem n = s.mem n

theorem walkpgdir_step (fits : L.Fits) (good : Good L (s.free + frames s.mem d + R))
    (small : va < 2 ^ 32) :
    Spec allowed (walkpgdir d va true) s fun r s' => Walked s s' d R ∧ match r with
      | some (t, j) => tableOf s'.mem d (va / PGSIZE / NPTENTRIES) = some t ∧
          j = va / PGSIZE % NPTENTRIES
      | none => True := by
  have same : Walked s s d R := ⟨rfl, fun _ _ => rfl, fun _ _ => rfl⟩
  refine Spec.bind_get ?_
  rw [← PDX_eq small, ← PTX_eq]
  dsimp only
  split
  · rename_i set
    refine Spec.pure ⟨same, ?_, rfl⟩
    rw [tableOf, entry_eq_some.mpr ⟨set, rfl⟩]
    rfl
  rename_i clear
  have absent : tableOf s.mem d (PDX va) = none := by
    rw [tableOf, entry_eq_none.mpr (Decidable.not_not.mp clear)]
    rfl
  refine Spec.bind (kalloc_spec s) ?_
  rintro r s1 ⟨mem, taken⟩
  cases r with
  | none =>
    rw [one, add_zero] at taken
    refine Spec.pure ⟨⟨?_, fun a _ => ?_, fun n _ => ?_⟩, trivial⟩
    · rw [taken, mem]
    · rw [mem]
    · rw [mem]
  | some t =>
    have free : t ∈ s.free := by
      rw [← taken]
      exact Multiset.mem_add.mpr (Or.inr (Multiset.mem_singleton_self t))
    have fresh : t ∉ frames s.mem d := good.left.apart free
    have below : t < 2 ^ 20 := fits.lt (good.usable t
      (Multiset.mem_add.mpr (Or.inl (Multiset.mem_add.mpr (Or.inl free)))))
    have once : (frames s.mem d).Nodup := good.left.right.once
    have other : d ≠ t := fun equal => fresh (equal ▸ self_mem_frames)
    refine Spec.bind_modify (Spec.bind_modify (Spec.pure ?_))
    have memory : Function.update (Function.update s1.mem t fun _ => 0) d
        (set32 ((Function.update s1.mem t fun _ => 0) d) (PDX va)
          (PGSIZE * t ||| PTE_P ||| PTE_W ||| PTE_U)) = installed s.mem d (PDX va) t := by
      rw [mem, Function.update_of_ne other]
      rfl
    refine ⟨⟨?_, fun a within => ?_, fun n member => ?_⟩, ?_, rfl⟩
    · change s1.free + frames (Function.update _ d _) d = _
      rw [memory, frames_installed below absent (PDX_lt va), ← taken]
      abel
    · rw [memory, entryAt_installed fresh below absent once within]
    · change Function.update (Function.update s1.mem t _) d _ n = _
      have apart : n ≠ d := by
        rintro rfl
        exact good.apart (Multiset.mem_add.mpr (Or.inr self_mem_frames)) member
      have apart' : n ≠ t := by
        rintro rfl
        exact good.apart (Multiset.mem_add.mpr (Or.inl free)) member
      rw [Function.update_of_ne apart, Function.update_of_ne apart', mem]
    · rw [memory, tableOf_installed below, Function.update_self]

end Walk

section Map

variable {first page perm k : Nat}

/-- `k` pages from `first` on are mapped to those from `page` on. -/
structure Mapped (s s' : State) (d : Nat) (R : Multiset Nat) (first k page perm : Nat) : Prop where
  pages : s'.free + frames s'.mem d = s.free + frames s.mem d
  entries : ∀ b < 2 ^ 20, entryAt s'.mem d b =
    if first ≤ b ∧ b < first + k then some (mapWord (page + (b - first)) perm)
    else entryAt s.mem d b
  frame : ∀ n ∈ R, s'.mem n = s.mem n

theorem Walked.mapped (walked : Walked s s' d R) : Mapped s s' d R first 0 page perm := by
  refine ⟨walked.pages, fun b within => ?_, walked.frame⟩
  rw [if_neg (by omega), walked.entries b within]

/-- Entry `n` is set to the word. -/
structure EntrySet (s s' : State) (d : Nat) (R : Multiset Nat) (n v : Nat) : Prop where
  pages : s'.free + frames s'.mem d = s.free + frames s.mem d
  entries : ∀ b < 2 ^ 20, entryAt s'.mem d b = if b = n then entry v else entryAt s.mem d b
  frame : ∀ n ∈ R, s'.mem n = s.mem n

theorem Walked.entrySet {t v : Nat} (good : Good L (s.free + frames s.mem d + R))
    (walked : Walked s s1 d R) (within : n < 2 ^ 20)
    (here : tableOf s1.mem d (n / NPTENTRIES) = some t) (fits : v < 2 ^ 32) :
    EntrySet s (s1.putWord t (n % NPTENTRIES) v) d R n v := by
  rw [← walked.pages] at good
  have once : (frames s1.mem d).Nodup := good.left.right.once
  have inside : n / NPTENTRIES < NPDENTRIES := by
    simp only [NPTENTRIES, NPDENTRIES]
    omega
  refine ⟨?_, fun b below => ?_, fun m member => ?_⟩
  · change s1.free + frames (Function.update _ t _) d = _
    rw [frames_setEntry once within here, walked.pages]
  · change entryAt (Function.update _ t _) d b = _
    rw [entryAt_setEntry once within here fits below, walked.entries b below]
  · have apart : m ≠ t := by grind [Good.apart, table_mem_frames]
    change Function.update _ t _ m = _
    rw [Function.update_of_ne apart, walked.frame m member]

theorem EntrySet.mapped (set : EntrySet s s' d R first (mapWord page perm)) :
    Mapped s s' d R first 1 page perm := by
  refine ⟨set.pages, fun b within => ?_, set.frame⟩
  rw [set.entries b within]
  by_cases here : b = first
  · rw [if_pos here, if_pos (by omega), here, Nat.sub_self, Nat.add_zero, entry_mapWord]
  · rw [if_neg here, if_neg (by omega)]

theorem Mapped.trans (one : Mapped s s1 d R first 1 page perm)
    (more : Mapped s1 s2 d R (first + 1) k (page + 1) perm) :
    Mapped s s2 d R first (k + 1) page perm := by
  refine ⟨more.pages.trans one.pages, fun b within => ?_, fun n member =>
    (more.frame n member).trans (one.frame n member)⟩
  rw [more.entries b within, one.entries b within]
  grind

/-- The loop of `mappages` with `n + 1` pages to go. -/
theorem mappages_loop {size fuel : Nat} (lay : L.Fits) (small : perm < PGSIZE)
    (good : Good L (s.free + frames s.mem d + R)) (room : first + n < 2 ^ 20)
    (phys : page + n < 2 ^ 20) (last : PGROUNDDOWN (sub32 (add32 va size) 1) = PGSIZE * (first + n))
    (enough : n < fuel) (unmapped : ∀ b, first ≤ b → b ≤ first + n → entryAt s.mem d b = none) :
    Spec allowed (mappages.loop d va size perm fuel (PGSIZE * first) (PGSIZE * page)) s fun r s' =>
      ∃ k ≤ n + 1, Mapped s s' d R first k page perm ∧ (r = 0 ∧ k = n + 1 ∨ r = -1 ∧ k < n + 1) :=
        by
  induction fuel generalizing s first page n with
  | zero => omega
  | succ fuel ih =>
    have address : PGSIZE * first < 2 ^ 32 := by
      simp only [PGSIZE]
      omega
    have index : PGSIZE * first / PGSIZE = first := Nat.mul_div_cancel_left first (by decide)
    refine Spec.bind (walkpgdir_step lay good address) ?_
    rintro r s1 ⟨walked, found⟩
    cases r with
    | none => exact Spec.pure ⟨0, Nat.zero_le _, walked.mapped, Or.inr ⟨rfl, Nat.succ_pos n⟩⟩
    | some pte =>
      obtain ⟨table, column⟩ := found
      rw [index] at table column
      have clear := unmapped first (Nat.le_refl _) (Nat.le_add_right _ _)
      rw [← walked.entries first (by omega), entryAt, table, Option.bind_some, ← column] at clear
      refine Spec.bind_get ?_
      rw [if_neg (fun set => set (entry_eq_none.mp clear)), column]
      have set := walked.entrySet good (show first < 2 ^ 20 by omega) table
        (mapWord_lt (show page < 2 ^ 20 by omega) small)
      refine Spec.bind_modify ?_
      change Spec allowed _ (s1.putWord pte.1 (first % NPTENTRIES) (mapWord page perm)) _
      generalize s1.putWord pte.1 (first % NPTENTRIES) (mapWord page perm) = s2 at set
      rw [last]
      by_cases final : n = 0
      · simp [Spec.pure, EntrySet.mapped, final, set]
      · have next : add32 (PGSIZE * first) PGSIZE = PGSIZE * (first + 1) ∧
            add32 (PGSIZE * page) PGSIZE = PGSIZE * (page + 1) := by
          simp only [add32, PGSIZE]
          omega
        rw [if_neg (by simp only [PGSIZE]; omega), next.1, next.2]
        have good2 : Good L (s2.free + frames s2.mem d + R) := by
          rw [set.pages]
          exact good
        refine Spec.mono (@ih s2 (n - 1) (first + 1) (page + 1) good2 (by omega) (by omega) ?_
          (by omega) ?_) ?_
        · rw [last, show first + 1 + (n - 1) = first + n by omega]
        · intro b low high
          rw [set.entries b (by omega), if_neg (by omega)]
          exact unmapped b (by omega) (by omega)
        · rintro r s' ⟨k, most, mapped, result⟩
          refine ⟨k + 1, by omega, set.mapped.trans mapped, ?_⟩
          omega

theorem mappages_spec (lay : L.Fits) (small : perm < PGSIZE)
    (good : Good L (s.free + frames s.mem d + R)) (room : first + n < 2 ^ 20)
    (phys : page + n < 2 ^ 20)
    (unmapped : ∀ b, first ≤ b → b ≤ first + n → entryAt s.mem d b = none) :
    Spec allowed (mappages d (PGSIZE * first) (PGSIZE * (n + 1)) (PGSIZE * page) perm) s fun r s' =>
      ∃ k ≤ n + 1, Mapped s s' d R first k page perm ∧ (r = 0 ∧ k = n + 1 ∨ r = -1 ∧ k < n + 1) :=
        by
  have start : PGROUNDDOWN (PGSIZE * first) = PGSIZE * first := by
    simp only [PGROUNDDOWN, PGSIZE]
    omega
  have last : PGROUNDDOWN (sub32 (add32 (PGSIZE * first) (PGSIZE * (n + 1))) 1) = PGSIZE *
    (first + n) := by
    simp only [PGROUNDDOWN, sub32, add32, PGSIZE]
    omega
  grind [mappages, mappages_loop]

end Map

section Dealloc

variable {lo hi mid : Nat}

/-- Only the entries from `lo` to `hi` changed, and pages moved between the address space and the
free list. -/
structure Moved (s s' : State) (d : Nat) (R : Multiset Nat) (lo hi : Nat) : Prop where
  pages : s'.free + space s'.mem d = s.free + space s.mem d
  kept : ∀ b < 2 ^ 20, b < lo ∨ hi ≤ b → entryAt s'.mem d b = entryAt s.mem d b
  data : ∀ b < UPAGES, b < lo ∨ hi ≤ b → ∀ n, pageAt s.mem d b = some n → s'.mem n = s.mem n
  frame : ∀ n ∈ R, s'.mem n = s.mem n

theorem Moved.refl :
    Moved s s d R lo hi := ⟨rfl, fun _ _ _ => rfl, fun _ _ _ _ _ => rfl, fun _ _ => rfl⟩

theorem Moved.widen {lo' hi' : Nat} (moved : Moved s s' d R lo hi)
    (less : ∀ b, b < lo' ∨ hi' ≤ b → b < lo ∨ hi ≤ b) : Moved s s' d R lo' hi' :=
  ⟨moved.pages, fun b within outside => moved.kept b within (less b outside),
    fun b within outside => moved.data b within (less b outside), moved.frame⟩

/-- If there was nothing before and there is nothing now, nothing changed. -/
theorem Moved.narrow (moved : Moved s s' d R lo hi)
    (before : ∀ b, lo ≤ b → b < hi → entryAt s.mem d b = none)
    (after : ∀ b, lo ≤ b → b < hi → entryAt s'.mem d b = none) : Moved s s' d R lo lo := by
  refine ⟨moved.pages, fun b within _ => ?_, fun b within _ n here => ?_, moved.frame⟩
  · by_cases inside : lo ≤ b ∧ b < hi
    · rw [before b inside.1 inside.2, after b inside.1 inside.2]
    · exact moved.kept b within (by omega)
  · by_cases inside : lo ≤ b ∧ b < hi
    · grind [pageAt]
    · exact moved.data b within (by omega) n here

theorem Moved.trans (first : Moved s s1 d R lo hi) (second : Moved s1 s2 d R lo hi) :
    Moved s s2 d R lo hi := by
  refine ⟨second.pages.trans first.pages, fun b within outside => ?_,
    fun b within outside n here => ?_,
    fun n member => (second.frame n member).trans (first.frame n member)⟩
  · rw [second.kept b within outside, first.kept b within outside]
  · have there : pageAt s1.mem d b = some n := by
      rw [pageAt, first.kept b (within.trans UPAGES_lt) outside]
      exact here
    rw [second.data b within outside n there, first.data b within outside n here]

theorem Moved.good (moved : Moved s s' d R lo hi) (good : Good L (s.free + space s.mem d + R)) :
    Good L (s'.free + space s'.mem d + R) := by
  rw [moved.pages]
  exact good

/-- The user pages from `lo` to `hi` are no longer mapped, and free. -/
structure Shrunk (s s' : State) (d : Nat) (R : Multiset Nat) (lo hi : Nat) : Prop where
  moved : Moved s s' d R lo hi
  gone : ∀ b, lo ≤ b → b < hi → entryAt s'.mem d b = none

theorem Shrunk.refl (empty : ∀ b, lo ≤ b → b < hi → entryAt s.mem d b = none) :
    Shrunk s s d R lo hi :=
  ⟨Moved.refl, empty⟩

theorem Shrunk.trans (low : lo ≤ mid) (high : mid ≤ hi) (bound : mid ≤ UPAGES)
    (first : Shrunk s s1 d R lo mid) (second : Shrunk s1 s2 d R mid hi) :
    Shrunk s s2 d R lo hi := by
  have small := UPAGES_lt
  refine ⟨(first.moved.widen (by omega)).trans (second.moved.widen (by omega)), ?_⟩
  intro b from' below
  by_cases middle : mid ≤ b
  · exact second.gone b middle below
  · rw [second.moved.kept b (by omega) (Or.inl (by omega))]
    exact first.gone b from' (by omega)

/-- Where nothing is mapped there is nothing to free. -/
theorem Shrunk.widen (low : lo ≤ mid) (reach : mid ≤ UPAGES)
    (empty : ∀ b, lo ≤ b → b < mid → entryAt s.mem d b = none) (shrunk : Shrunk s s' d R mid hi) :
    Shrunk s s' d R lo hi := by
  have small := UPAGES_lt
  refine ⟨shrunk.moved.widen (by omega), fun b from' below => ?_⟩
  by_cases middle : mid ≤ b
  · exact shrunk.gone b middle below
  · rw [shrunk.moved.kept b (by omega) (Or.inl (by omega))]
    exact empty b from' (by omega)

/-- One page is freed and its entry is cleared. -/
theorem shrunk_one {t w : Nat} (good : Good L (s.free + space s.mem d + R)) (within : lo < UPAGES)
    (table : tableOf s.mem d (lo / NPTENTRIES) = some t) (here : entryAt s.mem d lo = some w)
    (mem : s1.mem = Function.update s.mem (pageOf w) fun _ => 1)
    (freed : s1.free = s.free + {pageOf w}) :
    Shrunk s (s1.putWord t (lo % NPTENTRIES) 0) d R lo (lo + 1) := by
  have small := UPAGES_lt
  have page : pageAt s.mem d lo = some (pageOf w) := by rw [pageAt, here, Option.map_some]
  have leaf := page_mem_leaves within page
  have inside : lo / NPTENTRIES < NPDENTRIES := by
    simp only [NPTENTRIES, NPDENTRIES]
    omega
  have own : Good L (frames s.mem d + leaves s.mem d) := good.left.right
  have apart : pageOf w ∉ frames s.mem d := fun member => own.apart member leaf
  have frame := table_mem_frames inside table
  have same : ∀ n ∈ frames s.mem d, s1.mem n = s.mem n := by
    intro n member
    have other : n ≠ pageOf w := fun equal => apart (equal ▸ member)
    rw [mem, Function.update_of_ne other]
  have once : (frames s1.mem d).Nodup := by
    rw [frames_congr (same d self_mem_frames)]
    exact own.left.once
  have table1 : tableOf s1.mem d (lo / NPTENTRIES) = some t := by
    rw [tableOf_congr (same d self_mem_frames), table]
  have frames2 : frames (s1.putWord t (lo % NPTENTRIES) 0).mem d = frames s.mem d := by
    change frames (Function.update _ t _) d = _
    rw [frames_setEntry once (by omega) table1, frames_congr (same d self_mem_frames)]
  have entries2 : ∀ b < 2 ^ 20, entryAt (s1.putWord t (lo % NPTENTRIES) 0).mem d b =
      if b = lo then none else entryAt s.mem d b := by
    intro b below
    change entryAt (Function.update _ t _) d b = _
    rw [entryAt_setEntry once (by omega) table1 (by decide) below, entryAt_congr same below,
      entry_zero]
  have leaves2 : leaves (s1.putWord t (lo % NPTENTRIES) 0).mem d + {pageOf w} = leaves s.mem d := by
    have taken := contents_take (mem_upages.mpr within) page
    rw [leaves, leaves, ← taken]
    congr 1
    refine contents_congr fun b below => ?_
    have below := mem_upages.mp below
    grind [pageAt, Function.update_self, Function.update_of_ne]
  have data2 : ∀ n, n ≠ pageOf w → n ≠ t → (s1.putWord t (lo % NPTENTRIES) 0).mem n = s.mem n := by
    intro n other other'
    change Function.update _ t _ n = _
    rw [Function.update_of_ne other', mem, Function.update_of_ne other]
  refine ⟨⟨?_, fun b below outside => ?_, fun b below outside n there => ?_, fun n member => ?_⟩,
    fun b from' below => ?_⟩
  · change s1.free + space _ d = _
    rw [space, space, frames2, freed, ← leaves2]
    abel
  · rw [entries2 b below, if_neg (by omega)]
  · refine data2 n (fun equal => ?_) fun equal => ?_
    · rw [equal] at there
      have : b = lo := contents_inj own.right.once (mem_upages.mpr below) (mem_upages.mpr within)
        there page
      omega
    · exact own.apart frame (equal ▸ page_mem_leaves below there)
  · refine data2 n (fun equal => ?_) fun equal => ?_
    · exact good.apart (Multiset.mem_add.mpr (Or.inr (Multiset.mem_add.mpr (Or.inr leaf))))
        (equal ▸ member)
    · exact good.apart (Multiset.mem_add.mpr (Or.inr (Multiset.mem_add.mpr (Or.inl frame))))
        (equal ▸ member)
  · rw [entries2 b (by omega), if_pos (by omega)]

/-- The loop of `deallocuvm` from page `lo` on; it skips what has no page table. -/
theorem deallocuvm_loop {oldsz fuel : Nat} (lay : L.Fits)
    (good : Good L (s.free + space s.mem d + R)) (bound : hi ≤ UPAGES) (start : lo ≤ UPAGES)
    (ends : ∀ a, PGSIZE * a < oldsz ↔ a < hi) (some : 0 < fuel) (enough : hi < lo + fuel) :
    Spec allowed (deallocuvm.loop L d oldsz fuel (PGSIZE * lo)) s fun _ s' =>
      Shrunk s s' d R lo hi := by
  have small := UPAGES_lt
  induction fuel generalizing s lo with
  | zero => omega
  | succ fuel ih =>
    rw [deallocuvm.loop]
    by_cases more : lo < hi
    · have index : PGSIZE * lo / PGSIZE = lo := Nat.mul_div_cancel_left lo (by decide)
      have address : PGSIZE * lo < 2 ^ 32 := by
        simp only [PGSIZE] at *
        omega
      have next : add32 (PGSIZE * lo) PGSIZE = PGSIZE * (lo + 1) := by
        simp only [add32, PGSIZE] at *
        omega
      rw [if_pos ((ends lo).mpr more)]
      refine Spec.bind (walkpgdir_finds d address) ?_
      rintro r s1 ⟨same, found⟩
      rw [same]
      rw [index] at found
      cases table : tableOf s.mem d (lo / NPTENTRIES) with
      | none =>
        rw [table] at found
        subst found
        have skip : add32 (sub32 (PGADDR (PDX (PGSIZE * lo) + 1) 0 0) PGSIZE) PGSIZE =
            PGSIZE * (NPTENTRIES * (lo / NPTENTRIES + 1)) := by
          rw [PDX_eq address, index]
          simp only [add32, sub32, PGADDR, PGSIZE, NPTENTRIES, UPAGES, KERNBASE] at *
          omega
        rw [skip]
        have after : lo < NPTENTRIES * (lo / NPTENTRIES + 1) ∧
            NPTENTRIES * (lo / NPTENTRIES + 1) ≤ UPAGES := by
          grind
        refine Spec.mono (ih good after.2 (by omega) (by omega)) fun _ s' shrunk => ?_
        refine shrunk.widen (Nat.le_of_lt after.1) after.2 fun b from' below => ?_
        have block : b / NPTENTRIES = lo / NPTENTRIES := by
          simp only [NPTENTRIES] at *
          omega
        rw [entryAt, block, table]
        rfl
      | some t =>
        rw [table] at found
        subst found
        refine Spec.bind_get ?_
        have word : entryAt s.mem d lo = entry (get32 (s.mem t) (lo % NPTENTRIES)) := by
          rw [entryAt, table, Option.bind_some]
        by_cases set : get32 (s.mem t) (lo % NPTENTRIES) &&& PTE_P ≠ 0
        · rw [entry_eq_some.mpr ⟨set, rfl⟩] at word
          have page : pageAt s.mem d lo = Option.some
            (pageOf (get32 (s.mem t) (lo % NPTENTRIES))) := by
            rw [pageAt, word, Option.map_some]
          have leaf := page_mem_leaves (by omega) page
          rw [if_pos set, if_neg (show ¬ get32 (s.mem t) (lo % NPTENTRIES) / PGSIZE = 0 from
            lay.ne_zero (good.left.right.right.usable _ leaf))]
          refine Spec.bind (kfree_spec (good.left.pick (Multiset.mem_add.mpr (Or.inr leaf)))) ?_
          rintro _ s2 ⟨mem, freed⟩
          refine Spec.bind_modify ?_
          have first := shrunk_one good (by omega) table word mem freed
          rw [next]
          refine Spec.mono (ih (first.moved.good good) (by omega) (by omega) (by omega))
            fun _ s' second => ?_
          exact first.trans (Nat.le_succ lo) more (by omega) second
        · rw [entry_eq_none.mpr (Decidable.not_not.mp set)] at word
          rw [if_neg set, next]
          refine Spec.mono (ih good (by omega) (by omega) (by omega)) fun _ s' shrunk => ?_
          refine shrunk.widen (Nat.le_succ lo) (by omega) fun b from' below => ?_
          rw [show b = lo by omega, word]
    · grind [Spec.pure, Shrunk.refl]

/-- Number of pages of a process of `sz` bytes. -/
def pagesOf (sz : Nat) : Nat := (sz + (PGSIZE - 1)) / PGSIZE

theorem PGROUNDUP_eq {sz : Nat} (small : sz ≤ KERNBASE) : PGROUNDUP sz = PGSIZE * pagesOf sz := by
  simp only [PGROUNDUP, pagesOf, add32, PGSIZE, KERNBASE] at *
  omega

theorem lt_iff_lt_pagesOf (sz a : Nat) : PGSIZE * a < sz ↔ a < pagesOf sz := by
  simp only [pagesOf, PGSIZE]
  omega

theorem pagesOf_le {sz : Nat} (small : sz ≤ KERNBASE) : pagesOf sz ≤ UPAGES := by
  simp only [pagesOf, UPAGES, PGSIZE, KERNBASE] at *
  omega

theorem deallocuvm_spec {oldsz newsz : Nat} (lay : L.Fits)
    (good : Good L (s.free + space s.mem d + R)) (most : oldsz ≤ KERNBASE) :
    Spec allowed (deallocuvm L d oldsz newsz) s fun r s' =>
      r = min oldsz newsz ∧ Shrunk s s' d R (pagesOf newsz) (pagesOf oldsz) := by
  unfold deallocuvm
  split
  · rename_i less
    refine Spec.pure ⟨(Nat.min_eq_left less).symm, Shrunk.refl fun b from' below => ?_⟩
    have mono : pagesOf oldsz ≤ pagesOf newsz := Nat.div_le_div_right (by omega)
    omega
  have bound := pagesOf_le most
  have low : pagesOf newsz ≤ UPAGES := pagesOf_le (by omega)
  have small := UPAGES_lt
  rw [PGROUNDUP_eq (by omega)]
  refine Spec.bind (deallocuvm_loop lay good bound low (lt_iff_lt_pagesOf oldsz) (by decide)
    (by omega)) ?_
  grind [Spec.pure, Nat.min_eq_right]

end Dealloc

end Xv6.Vm
