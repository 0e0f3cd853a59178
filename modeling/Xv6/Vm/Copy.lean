import Xv6.Vm.Setup

/- `copyuvm`, which `fork` calls. -/
namespace Xv6.Vm

open Exec hiding panic
open Contents
open Fs (Block get32 set32 overwrite)

variable {L : Layout} {allowed : Stops} {s s' s1 s2 : State} {d n a b w sz pgdir : Nat}
  {R : Multiset Nat}

/-- Page `b` of `d` has the flags and the contents of page `b` of `pgdir`. -/
def SamePage (s s' : State) (pgdir d b : Nat) : Prop :=
  ∃ w w', entryAt s.mem pgdir b = some w ∧ entryAt s'.mem d b = some w' ∧ w' % PGSIZE = w % PGSIZE ∧
    s'.mem (pageOf w') = s.mem (pageOf w)

/-- The pages below `a` are copied, and there are no others. -/
structure Copied (L : Layout) (s s' : State) (pgdir d : Nat) (R : Multiset Nat) (a : Nat) :
    Prop where
  image : Image L s s' d (space s.mem pgdir + R)
  done : ∀ b < a, SamePage s s' pgdir d b
  rest : ∀ b, a ≤ b → b < UPAGES → entryAt s'.mem d b = none

section Loop

variable (good : Good L (s.free + (space s.mem pgdir + R)))

/-- The flags of a present entry have the present bit. -/
theorem present_flags (set : w &&& PTE_P ≠ 0) : w % PGSIZE ||| PTE_P = w % PGSIZE := by
  have odd : w % 2 = 1 := by
    have bit := Nat.and_one_is_mod w
    change w &&& 1 ≠ 0 at set
    omega
  have low : w % PGSIZE = 2 ^ 1 * (w % PGSIZE / 2) ||| 1 := by
    rw [← Nat.two_pow_add_eq_or_of_lt (by decide)]
    simp only [PGSIZE]
    omega
  rw [low, Nat.or_assoc]
  rfl

theorem Copied.parent (copied : Copied L s s1 pgdir d R a) :
    ∀ n ∈ space s.mem pgdir, s1.mem n = s.mem n :=
  fun n member => copied.image.frame n (Multiset.mem_add.mpr (Or.inl member))

theorem Copied.entry (copied : Copied L s s1 pgdir d R a) (within : b < 2 ^ 20) :
    entryAt s1.mem pgdir b = entryAt s.mem pgdir b :=
  entryAt_congr (fun n member => copied.parent n (Multiset.mem_add.mpr (Or.inl member))) within

theorem Copied.snoc (copied : Copied L s s1 pgdir d R a) (within : a < UPAGES)
    (here : entryAt s.mem pgdir a = some w) (set : w &&& PTE_P ≠ 0)
    (added : Added s1 s2 d (space s.mem pgdir + R) a (w % PGSIZE) (s.mem (pageOf w))) :
    Copied L s s2 pgdir d R (a + 1) := by
  have small := UPAGES_lt
  refine ⟨copied.image.moved added.moved within, fun b below => ?_, fun b above inside => ?_⟩
  · by_cases at' : b = a
    · obtain ⟨n, new, same⟩ := added.here
      have flags : w % PGSIZE < PGSIZE := Nat.mod_lt _ (by decide)
      refine ⟨w, mapWord n (w % PGSIZE), at' ▸ here, at' ▸ new, ?_, ?_⟩
      · rw [mapWord_mod n flags, present_flags set]
      · rw [pageOf_mapWord n flags, same]
    · obtain ⟨v, v', old, new, flags, same⟩ := copied.done b (by omega)
      have page : pageAt s1.mem d b = some (pageOf v') := by rw [pageAt, new, Option.map_some]
      refine ⟨v, v', old, ?_, flags, ?_⟩
      · rw [added.moved.kept b (by omega) (by omega), new]
      · rw [added.moved.data b (by omega) (by omega) _ page, same]
  · rw [added.moved.kept b (by omega) (by omega)]
    exact copied.rest b (by omega) inside

include good

/-- The copy is given up, and all its pages are free again. -/
theorem Image.freed (lay : L.Fits) (image : Image L s s1 d (space s.mem pgdir + R)) :
    Spec allowed (freevm L d) s1 fun _ s' =>
      s'.free = s.free ∧ ∀ n ∈ space s.mem pgdir + R, s'.mem n = s.mem n := by
  refine Spec.mono (freevm_spec lay (image.good good)) ?_
  grind [pages, frame]

/-- The loop of `copyuvm` with the pages below `a` copied. It may panic only where nothing is
mapped. -/
theorem copyuvm_loop {fuel : Nat} (lay : L.Fits)
    (maps : ∀ b < pagesOf sz, entryAt s.mem pgdir b = none → allowed "copyuvm: pte should exist" ∧
      allowed "copyuvm: page not present")
    (size : sz ≤ KERNBASE) (copied : Copied L s s1 pgdir d R a) (low : a ≤ pagesOf sz)
    (enough : pagesOf sz < a + fuel) :
    Spec allowed (copyuvm.loop L pgdir sz d fuel (PGSIZE * a)) s1 fun r s' =>
      r = 0 ∧ s'.free = s.free ∧ (∀ n ∈ space s.mem pgdir + R, s'.mem n = s.mem n) ∨
        r = d ∧ Copied L s s' pgdir d R (pagesOf sz) := by
  have small := UPAGES_lt
  have top := pagesOf_le size
  induction fuel generalizing s1 a with
  | zero => omega
  | succ fuel ih =>
    rw [copyuvm.loop]
    by_cases more : a < pagesOf sz
    · rw [if_pos ((lt_iff_lt_pagesOf sz a).mpr more)]
      have address : PGSIZE * a < 2 ^ 32 := by grind
      have good1 := copied.image.good good
      refine Spec.bind (walkpgdir_reads pgdir address) ?_
      rintro r s2 ⟨same, found⟩
      rw [same]
      rw [Nat.mul_div_cancel_left a (by decide), copied.entry (by omega)] at found
      cases here : entryAt s.mem pgdir a with
      | none =>
        rw [here] at found
        cases r with
        | none => exact Spec.panic (maps a more here).1
        | some pte =>
          refine Spec.bind_get ?_
          grind [Spec.panic]
      | some w =>
        rw [here] at found
        obtain ⟨t, table, rfl, word, set⟩ := found
        refine Spec.bind_get ?_
        rw [word, if_neg set]
        refine Spec.bind (kalloc_spec s1) ?_
        rintro r s3 ⟨mem, taken⟩
        cases r with
        | none =>
          have image : Image L s s3 d (space s.mem pgdir + R) := by
            rw [one, add_zero] at taken
            refine ⟨?_, fun b above within => ?_, fun n member => ?_⟩
            · rw [taken, mem]
              exact copied.image.pages
            · rw [mem]
              exact copied.image.kernel b above within
            · rw [mem]
              exact copied.image.frame n member
          refine Spec.bind (image.freed good lay) ?_
          grind [Spec.pure]
        | some n =>
          have leaf : pageOf w ∈ space s.mem pgdir := by
            refine Multiset.mem_add.mpr (Or.inr (page_mem_leaves (a := a) (by omega) ?_))
            rw [pageAt, here, Option.map_some]
          have took : Took s1 (s3.putPage n (s1.mem (pageOf w))) n (s1.mem (pageOf w)) :=
            Took.of_kalloc mem taken
          rw [copied.parent _ leaf] at took
          refine Spec.bind_modify ?_
          change Spec allowed _ (s3.putPage n (s1.mem (pageOf w))) _
          rw [copied.parent _ leaf]
          generalize s3.putPage n (s.mem (pageOf w)) = s4 at took
          have vacant : entryAt s4.mem d a = none := by
            rw [entryAt_congr (took.same good1) (by omega)]
            exact copied.rest a (Nat.le_refl a) (by omega)
          have flags : w % PGSIZE < PGSIZE := Nat.mod_lt _ (by decide)
          have good4 := took.shares good1
          refine Spec.bind (mappages_one lay flags (by omega) vacant good4) ?_
          rintro r s5 (⟨zero, placed⟩ | ⟨failed, moved⟩)
          · have next : add32 (PGSIZE * a) PGSIZE = PGSIZE * (a + 1) := by
              simp only [add32, PGSIZE, UPAGES, KERNBASE] at *
              omega
            rw [zero, if_neg (by decide), next]
            exact ih (copied.snoc (by omega) here set (took.added good1 placed)) more (by omega)
          · rw [failed, if_pos (by decide)]
            have own : n ∈ {n} + (space s.mem pgdir + R) :=
              Multiset.mem_add.mpr (Or.inl (Multiset.mem_singleton_self n))
            refine Spec.bind (kfree_spec ((moved.good good4).pick_other own)) ?_
            rintro _ s6 ⟨mem6, freed⟩
            have image := copied.image.moved (took.returned good1 moved mem6 freed) (by omega)
            refine Spec.bind (image.freed good lay) ?_
            grind [Spec.pure]
    · grind [lt_iff_lt_pagesOf, pagesOf, Spec.pure]

theorem copyuvm_spec (lay : L.Sound)
    (maps : ∀ b < pagesOf sz, entryAt s.mem pgdir b = none → allowed "copyuvm: pte should exist" ∧
      allowed "copyuvm: page not present")
    (size : sz ≤ KERNBASE) :
    Spec allowed (copyuvm L pgdir sz) s fun r s' =>
      r = 0 ∧ s'.free = s.free ∧ (∀ n ∈ space s.mem pgdir + R, s'.mem n = s.mem n) ∨
        r ≠ 0 ∧ Copied L s s' pgdir r R (pagesOf sz) := by
  have small := UPAGES_lt
  have top := pagesOf_le size
  refine Spec.bind (setupkvm_spec lay good) ?_
  rintro d s1 (⟨zero, free, frame⟩ | ⟨made, image, empty⟩)
  · grind [Spec.pure]
  · rw [if_neg made]
    have copied : Copied L s s1 pgdir d R 0 :=
      ⟨image, fun b below => by omega, fun b _ within => empty b within⟩
    refine Spec.mono (copyuvm_loop good lay.toFits maps size copied (Nat.zero_le _) (by omega)) ?_
    rintro r s' (failed | ⟨rfl, done⟩)
    · exact Or.inl failed
    · exact Or.inr ⟨made, done⟩

end Loop

/-- An address space with the user pages of `pgdir`, each in a page that was free, and with what
`kmap` has. -/
structure CopyOf (L : Layout) (s s' : State) (pgdir d sz : Nat) : Prop where
  user : ∀ b < pagesOf sz, SamePage s s' pgdir d b
  fresh : ∀ b < UPAGES, ∀ n, pageAt s'.mem d b = some n → n ∈ s.free ∧ ∀ c < UPAGES,
    pageAt s.mem pgdir c ≠ some n
  own : ∀ b < UPAGES, ∀ c < UPAGES, ∀ n, pageAt s'.mem d b = some n → pageAt s'.mem d c =
    some n → b = c
  exact : MapsExactly s'.mem d sz
  kernel : ∀ b, UPAGES ≤ b → b < 2 ^ 20 → entryAt s'.mem d b = L.entryFor b

theorem Copied.copyOf (good : Good L (s.free + (space s.mem pgdir + R)))
    (copied : Copied L s s' pgdir d R (pagesOf sz)) :
    CopyOf L s s' pgdir d sz := by
  have mine : ∀ b < UPAGES, ∀ n, pageAt s'.mem d b = some n → n ∈ leaves s'.mem d :=
    fun b within n here =>
    page_mem_leaves within here
  have once : (leaves s'.mem d).Nodup := (copied.image.good good).left.right.right.once
  refine ⟨copied.done, fun b within n here => ?_, fun b within c within' n here there => ?_,
    fun b within => ?_, copied.image.kernel⟩
  · have free : n ∈ s.free := by
      rw [← copied.image.pages]
      exact Multiset.mem_add.mpr (Or.inr (Multiset.mem_add.mpr (Or.inr (mine b within n here))))
    refine ⟨free, fun c within' there => good.apart free ?_⟩
    exact Multiset.mem_add.mpr (Or.inl (Multiset.mem_add.mpr
      (Or.inr (page_mem_leaves within' there))))
  · exact contents_inj once (mem_upages.mpr within) (mem_upages.mpr within') here there
  · by_cases below : b < pagesOf sz
    · obtain ⟨_, w', _, new, _⟩ := copied.done b below
      grind
    · grind [rest]

/-- `copyuvm` returns, and makes an independent copy or leaves no trace. -/
theorem copyuvm_independent (lay : L.Sound) (good : Good L (s.free + (space s.mem pgdir + R)))
    (maps : MapsExactly s.mem pgdir sz) (size : sz ≤ KERNBASE) :
    ∃ r s', copyuvm L pgdir sz s = .ok (r, s') ∧ (∀ n ∈ space s.mem pgdir + R, s'.mem n = s.mem n) ∧
      (r = 0 ∧ s'.free = s.free ∨ r ≠ 0 ∧ CopyOf L s s' pgdir r sz ∧ s'.free + space s'.mem r =
        s.free) := by
  have mapped : ∀ b < pagesOf sz, entryAt s.mem pgdir b = none →
      Stops.nothing "copyuvm: pte should exist" ∧ Stops.nothing "copyuvm: page not present" := by
    intro b below none
    have top := pagesOf_le size
    have some := (maps b (by omega)).mpr below
    rw [none] at some
    exact absurd some (by decide)
  have spec : Spec Stops.nothing (copyuvm L pgdir sz) s _ := copyuvm_spec good lay mapped size
  obtain ⟨r, s', ran, result⟩ := spec.total
  refine ⟨r, s', ran, ?_⟩
  rcases result with ⟨zero, free, frame⟩ | ⟨made, copied⟩
  · exact ⟨frame, Or.inl ⟨zero, free⟩⟩
  · exact ⟨copied.image.frame, Or.inr ⟨made, copied.copyOf good, copied.image.pages⟩⟩

/-- The process of `onePage` with something in its page, and four free pages. -/
def filledPage : State :=
  { onePage with mem := Function.update onePage.mem 1026 fun _ => 7, freelist :=
    [1028, 1029, 1030, 1031] }

/-- The page is copied: the directory, two page tables and the copy take the four free pages. -/
theorem copyuvm_independent_one :
    ∃ r s', copyuvm bareKernel 1024 PGSIZE filledPage = .ok (r, s') ∧ r ≠ 0 ∧
    CopyOf bareKernel filledPage s' 1024 r PGSIZE ∧ s'.free + space s'.mem r = filledPage.free ∧
    ∀ n ∈ space filledPage.mem 1024 + {1027}, s'.mem n = filledPage.mem n := by
  have same : ∀ n ∈ frames onePage.mem 1024, filledPage.mem n = onePage.mem n := by
    intro n member
    rw [frames_onePage] at member
    refine Function.update_of_ne (fun equal => ?_) _ _
    rw [equal] at member
    exact absurd member (by decide)
  have good : Good bareKernel (filledPage.free + (space filledPage.mem 1024 + {1027})) := by
    rw [space_congr same, space_onePage]
    refine ⟨by decide, ?_⟩
    unfold Layout.Usable
    decide
  have maps : MapsExactly filledPage.mem 1024 PGSIZE := by
    intro a within
    rw [entryAt_congr same (within.trans UPAGES_lt)]
    exact oneProc_sound.maps a within
  have nonzero : (copyuvm bareKernel 1024 PGSIZE filledPage).toOption.map
    (fun out => decide (out.1 ≠ 0)) = some true := by
    decide +kernel
  obtain ⟨r, s', ran, kept, result⟩ := copyuvm_independent bareKernel_sound good maps (by decide)
  rw [ran, Outcome.toOption, Option.map_some, Option.some.injEq, decide_eq_true_eq] at nonzero
  rcases result with ⟨zero, -⟩ | ⟨made, copy, pages⟩
  · exact absurd zero nonzero
  · exact ⟨r, s', ran, made, copy, pages, kept⟩

end Xv6.Vm
