import Xv6.Vm.Pages

/- How an address space grows: a page from the free list at a time, and back if there are not
enough. `growproc` of proc.c does that for a process. -/
namespace Xv6.Vm

open Exec hiding panic
open Contents
open Fs (Block get32 set32 overwrite)

variable {L : Layout} {allowed : Stops} {s s' s1 s2 s3 : State} {d n a lo hi perm : Nat}
  {R : Multiset Nat} {page : Block}

section Add

/-- Page `n` was free and now has these contents. -/
structure Took (s s' : State) (n : Nat) (page : Block) : Prop where
  free : s'.free + {n} = s.free
  here : s'.mem n = page
  others : ∀ m, m ≠ n → s'.mem m = s.mem m

theorem Took.of_kalloc (mem : s1.mem = s.mem) (free : s1.free + one (some n) = s.free) :
    Took s (s1.putPage n page) n page := by
  refine ⟨free, Function.update_self _ _ _, fun m other => ?_⟩
  change Function.update s1.mem n page m = _
  rw [Function.update_of_ne other, mem]

/-- A page of nobody can be filled with junk. -/
theorem Good.junk {junk : Block} (good : Good L (s.free + space s.mem d + ({n} + R)))
    (mem : s'.mem = Function.update s.mem n junk) : ∀ m ∈ frames s.mem d, s'.mem m = s.mem m := by
  intro m member
  have other : m ≠ n := by
    rintro rfl
    exact good.apart (Multiset.mem_add.mpr (Or.inr (Multiset.mem_add.mpr (Or.inl member))))
      (Multiset.mem_add.mpr (Or.inl (Multiset.mem_singleton_self m)))
  rw [mem, Function.update_of_ne other]

section Took

variable (good : Good L (s.free + space s.mem d + R)) (took : Took s s' n page)

include took

theorem Took.member : n ∈ s.free := by
  rw [← took.free]
  exact Multiset.mem_add.mpr (Or.inr (Multiset.mem_singleton_self n))

include good

theorem Took.fresh : n ∉ space s.mem d := good.left.apart took.member

theorem Took.frame : ∀ m ∈ space s.mem d + R, s'.mem m = s.mem m := by
  intro m member
  rw [add_assoc] at good
  refine took.others m fun equal => ?_
  exact good.apart took.member (equal ▸ member)

theorem Took.same : ∀ m ∈ frames s.mem d, s'.mem m = s.mem m := fun m member =>
  took.frame good m (Multiset.mem_add.mpr (Or.inl (Multiset.mem_add.mpr (Or.inl member))))

theorem Took.shares : Good L (s'.free + space s'.mem d + ({n} + R)) := by
  rw [space_congr (took.same good), show s'.free + space s.mem d + ({n} + R) = s'.free + {n} +
    space s.mem d + R by abel, took.free]
  exact good

/-- If the page is freed again, all is as if it had not been taken. -/
theorem Took.returned {s2 s3 : State} {junk : Block} (moved : Moved s' s2 d ({n} + R) lo hi)
    (mem : s3.mem = Function.update s2.mem n junk) (free : s3.free = s2.free + {n}) :
    Moved s s3 d R lo hi := by
  have same := (moved.good (took.shares good)).junk mem
  have others : ∀ m, m ≠ n → s3.mem m = s2.mem m := by
    intro m other
    rw [mem, Function.update_of_ne other]
  refine ⟨?_, fun b within outside => ?_, fun b within outside m here => ?_, fun m member => ?_⟩
  · rw [space_congr same, free, show s2.free + {n} + space s2.mem d = s2.free + space s2.mem d +
      {n} by abel, moved.pages,
      space_congr (took.same good), show s'.free + space s.mem d + {n} = s'.free + {n} +
      space s.mem d by abel, took.free]
  · rw [entryAt_congr same within, moved.kept b within outside,
      entryAt_congr (took.same good) within]
  · have there : m ∈ space s.mem d := Multiset.mem_add.mpr (Or.inr (page_mem_leaves within here))
    have other : m ≠ n := fun equal => took.fresh good (equal ▸ there)
    have here' : pageAt s'.mem d b = some m := by
      rw [pageAt, entryAt_congr (took.same good) (within.trans UPAGES_lt)]
      exact here
    rw [others m other, moved.data b within outside m here', took.others m other]
  · have other : m ≠ n := by grind [add_assoc, Good.apart, member]
    rw [others m other, moved.frame m (Multiset.mem_add.mpr (Or.inr member)), took.others m other]

end Took

/-- Page `n`, which was nobody's, is now page `a` of the address space. -/
structure Placed (s s' : State) (d : Nat) (R : Multiset Nat) (a n perm : Nat) : Prop where
  pages : s'.free + space s'.mem d = s.free + space s.mem d + {n}
  here : entryAt s'.mem d a = some (mapWord n perm)
  kept : ∀ b < 2 ^ 20, b ≠ a → entryAt s'.mem d b = entryAt s.mem d b
  data : ∀ m ∈ leaves s.mem d + ({n} + R), s'.mem m = s.mem m

theorem mappages_one (lay : L.Fits) (small : perm < PGSIZE) (within : a < UPAGES)
    (empty : entryAt s.mem d a = none) (good : Good L (s.free + space s.mem d + ({n} + R))) :
    Spec allowed (mappages d (PGSIZE * a) PGSIZE (PGSIZE * n) perm) s fun r s' =>
      r = 0 ∧ Placed s s' d R a n perm ∨ r = -1 ∧ Moved s s' d ({n} + R) a a := by
  have bound := UPAGES_lt
  have usable : L.Usable n := good.right.left.usable n (Multiset.mem_singleton_self n)
  have share : Good L (s.free + frames s.mem d + (leaves s.mem d + ({n} + R))) := by
    rw [show s.free + frames s.mem d + (leaves s.mem d + ({n} + R)) = s.free + space s.mem d +
      ({n} + R) by
      rw [space]
      abel]
    exact good
  change Spec allowed (mappages d (PGSIZE * a) (PGSIZE * (0 + 1)) (PGSIZE * n) perm) s _
  refine Spec.mono (mappages_spec lay small share (by omega) (lay.lt usable) fun b low high => ?_)
    fun r s' => ?_
  · rw [show b = a by omega]
    exact empty
  rintro ⟨k, most, mapped, ⟨zero, all⟩ | ⟨failed, less⟩⟩
  · left
    have entries : ∀ b < 2 ^ 20, entryAt s'.mem d b =
      if b = a then some (mapWord n perm) else entryAt s.mem d b := by
      intro b below
      rw [mapped.entries b below]
      grind
    have leaves' : leaves s'.mem d = leaves s.mem d + {n} := by
      have absent : pageAt s.mem d a = none := by rw [pageAt, empty, Option.map_none]
      rw [leaves, leaves, ← contents_put (mem_upages.mpr within) absent n]
      refine contents_congr fun b inside => ?_
      have inside := mem_upages.mp inside
      grind [pageAt, Function.update_self, pageOf_mapWord, Function.update_of_ne]
    refine ⟨zero, ?_, ?_, fun b below other => ?_, mapped.frame⟩
    · rw [space, space, leaves', ← add_assoc, ← add_assoc, mapped.pages]
      abel
    · rw [entries a (by omega), if_pos rfl]
    · rw [entries b below, if_neg other]
  · right
    have entries : ∀ b < 2 ^ 20, entryAt s'.mem d b = entryAt s.mem d b := by
      intro b below
      rw [mapped.entries b below, if_neg (by omega)]
    refine ⟨failed, ?_, fun b below _ => entries b below, fun b below _ m here => ?_,
      fun m member => ?_⟩
    · rw [space, space, leaves_congr fun b below => entries b (by omega), ← add_assoc, ← add_assoc,
        mapped.pages]
    · exact mapped.frame m (Multiset.mem_add.mpr (Or.inl (page_mem_leaves below here)))
    · exact mapped.frame m (Multiset.mem_add.mpr (Or.inr member))

/-- Page `a` of the address space is new, with these contents. -/
structure Added (s s' : State) (d : Nat) (R : Multiset Nat) (a perm : Nat) (page : Block) :
    Prop where
  moved : Moved s s' d R a (a + 1)
  here : ∃ n, entryAt s'.mem d a = some (mapWord n perm) ∧ s'.mem n = page

theorem Took.added (good : Good L (s.free + space s.mem d + R)) (took : Took s s1 n page)
    (placed : Placed s1 s2 d R a n perm) : Added s s2 d R a perm page := by
  have leaf : leaves s1.mem d = leaves s.mem d :=
    leaves_congr fun b within => entryAt_congr (took.same good) (within.trans UPAGES_lt)
  refine ⟨⟨?_, fun b within outside => ?_, fun b within outside m here => ?_, fun m member => ?_⟩,
    n, placed.here, ?_⟩
  · rw [placed.pages, space_congr (took.same good),
      show s1.free + space s.mem d + {n} = s1.free + {n} + space s.mem d by abel, took.free]
  · rw [placed.kept b within (by omega), entryAt_congr (took.same good) within]
  · have member := page_mem_leaves within here
    rw [placed.data m (Multiset.mem_add.mpr (Or.inl (leaf ▸ member))),
      took.frame good m (Multiset.mem_add.mpr (Or.inl (Multiset.mem_add.mpr (Or.inr member))))]
  · rw [placed.data m (Multiset.mem_add.mpr (Or.inr (Multiset.mem_add.mpr (Or.inr member)))),
      took.frame good m (Multiset.mem_add.mpr (Or.inr member))]
  · rw [placed.data n (Multiset.mem_add.mpr
      (Or.inr (Multiset.mem_add.mpr (Or.inl (Multiset.mem_singleton_self n))))), took.here]

end Add

section Alloc

variable {oldsz newsz fuel : Nat}

/-- The user pages from `lo` to `hi` are new, and zero. -/
structure Grown (s s' : State) (d : Nat) (R : Multiset Nat) (lo hi : Nat) : Prop where
  moved : Moved s s' d R lo hi
  fresh : ∀ b, lo ≤ b → b < hi →
    ∃ n, entryAt s'.mem d b = some (mapWord n (PTE_W ||| PTE_U)) ∧ s'.mem n = fun _ => 0

theorem Grown.refl (none : hi ≤ lo) :
    Grown s s d R lo hi := ⟨Moved.refl, fun b from' below => by omega⟩

theorem Grown.snoc (grown : Grown s s1 d R lo a) (low : lo ≤ a) (within : a ≤ UPAGES)
    (added : Added s1 s2 d R a (PTE_W ||| PTE_U) fun _ => 0) : Grown s s2 d R lo (a + 1) := by
  have bound := UPAGES_lt
  refine ⟨(grown.moved.widen (by omega)).trans (added.moved.widen (by omega)),
    fun b from' below => ?_⟩
  by_cases at' : b = a
  · rw [at']
    exact added.here
  · obtain ⟨n, here, zero⟩ := grown.fresh b from' (by omega)
    have page : pageAt s1.mem d b = some n := by
      rw [pageAt, here, Option.map_some, pageOf_mapWord n (by decide)]
    refine ⟨n, ?_, ?_⟩
    · rw [added.moved.kept b (by omega) (by omega), here]
    · rw [added.moved.data b (by omega) (by omega) n page, zero]

/-- The loop of `allocuvm` with the pages from `lo` to `a` done. -/
theorem allocuvm_loop (lay : L.Fits) (good : Good L (s.free + space s.mem d + R))
    (most : newsz < KERNBASE) (low : pagesOf oldsz ≤ a) (high : a ≤ pagesOf newsz)
    (empty : ∀ b, pagesOf oldsz ≤ b → b < pagesOf newsz → entryAt s.mem d b = none)
    (grown : Grown s s1 d R (pagesOf oldsz) a) (enough : pagesOf newsz < a + fuel) :
    Spec allowed (allocuvm.loop L d oldsz newsz fuel (PGSIZE * a)) s1 fun r s' =>
      r = newsz ∧ Grown s s' d R (pagesOf oldsz) (pagesOf newsz) ∨
        r = 0 ∧ Moved s s' d R (pagesOf oldsz) (pagesOf oldsz) := by
  have bound := UPAGES_lt
  have top : pagesOf newsz ≤ UPAGES := pagesOf_le (Nat.le_of_lt most)
  induction fuel generalizing s1 a with
  | zero => omega
  | succ fuel ih =>
    have good1 := grown.moved.good good
    rw [allocuvm.loop]
    by_cases more : a < pagesOf newsz
    · rw [if_pos ((lt_iff_lt_pagesOf newsz a).mpr more)]
      refine Spec.bind (kalloc_spec s1) ?_
      rintro r s2 ⟨mem, taken⟩
      cases r with
      | none =>
        -- What was mapped so far is freed again.
        have still : Moved s1 s2 d R (pagesOf oldsz) (pagesOf newsz) := by
          rw [one, add_zero] at taken
          refine ⟨?_, fun b _ _ => ?_, fun b _ _ n _ => ?_, fun n _ => ?_⟩
          · rw [taken, mem]
          · rw [mem]
          · rw [mem]
          · rw [mem]
        refine Spec.bind (deallocuvm_spec lay (still.good good1) (Nat.le_of_lt most)) ?_
        rintro _ s3 ⟨_, shrunk⟩
        have moved := ((grown.moved.widen (by omega)).trans still).trans shrunk.moved
        exact Spec.pure (Or.inr ⟨rfl, moved.narrow empty shrunk.gone⟩)
      | some n =>
        have took : Took s1 (s2.putPage n fun _ => 0) n fun _ => 0 := Took.of_kalloc mem taken
        refine Spec.bind_modify ?_
        change Spec allowed _ (s2.putPage n fun _ => 0) _
        generalize s2.putPage n (fun _ => 0) = s3 at took
        have vacant : entryAt s3.mem d a = none := by
          rw [entryAt_congr (took.same good1) (by omega), grown.moved.kept a (by omega) (by omega)]
          exact empty a low more
        have good3 := took.shares good1
        refine Spec.bind (mappages_one lay (by decide) (by omega) vacant good3) ?_
        rintro r s4 (⟨zero, placed⟩ | ⟨failed, moved⟩)
        · rw [zero, if_neg (by decide)]
          have next : add32 (PGSIZE * a) PGSIZE = PGSIZE * (a + 1) := by
            simp only [add32, PGSIZE, UPAGES, KERNBASE] at *
            omega
          rw [next]
          exact ih (by omega) more (grown.snoc low (by omega) (took.added good1 placed)) (by omega)
        · rw [failed, if_pos (by decide)]
          refine Spec.bind (deallocuvm_spec lay (moved.good good3) (Nat.le_of_lt most)) ?_
          rintro _ s5 ⟨_, shrunk⟩
          have good5 := shrunk.moved.good (moved.good good3)
          have own : n ∈ {n} + R := Multiset.mem_add.mpr (Or.inl (Multiset.mem_singleton_self n))
          refine Spec.bind (kfree_spec (good5.pick_other own)) ?_
          rintro _ s6 ⟨mem6, freed⟩
          have moved := ((grown.moved.widen (by omega)).trans
            (took.returned good1 ((moved.widen (by omega)).trans shrunk.moved) mem6 freed))
          refine Spec.pure (Or.inr ⟨rfl, moved.narrow empty fun b from' below => ?_⟩)
          rw [entryAt_congr (good5.junk mem6) (by omega)]
          exact shrunk.gone b from' below
    · grind [lt_iff_lt_pagesOf, pagesOf, Spec.pure]

theorem pagesOf_mono {sz sz' : Nat} (less : sz ≤ sz') : pagesOf sz ≤ pagesOf sz' :=
  Nat.div_le_div_right (Nat.add_le_add_right less _)

/-- `allocuvm` maps all the new pages or none. -/
theorem allocuvm_spec (lay : L.Fits) (good : Good L (s.free + space s.mem d + R))
    (empty : ∀ b, pagesOf oldsz ≤ b → b < UPAGES → entryAt s.mem d b = none) :
    Spec allowed (allocuvm L d oldsz newsz) s fun r s' =>
      r = max oldsz newsz ∧ newsz < KERNBASE ∧ Grown s s' d R (pagesOf oldsz) (pagesOf newsz) ∨
        r = 0 ∧ Moved s s' d R (pagesOf oldsz) (pagesOf oldsz) := by
  have bound := UPAGES_lt
  unfold allocuvm
  split
  · exact Spec.pure (Or.inr ⟨rfl, Moved.refl⟩)
  rename_i below
  have most : newsz < KERNBASE := Nat.lt_of_not_le below
  have top : pagesOf newsz ≤ UPAGES := pagesOf_le (Nat.le_of_lt most)
  split
  · grind [Spec.pure, Nat.max_eq_left, Nat.le_of_lt, Grown.refl, pagesOf_mono]
  rename_i more
  have mono : pagesOf oldsz ≤ pagesOf newsz := pagesOf_mono (Nat.le_of_not_lt more)
  rw [PGROUNDUP_eq (by omega)]
  refine Spec.mono (allocuvm_loop lay good most (Nat.le_refl _) mono (fun b from' below =>
    empty b from' (by omega)) (Grown.refl (Nat.le_refl _)) (by omega)) fun r s' => ?_
  rintro (⟨same, grown⟩ | failed)
  · exact Or.inl ⟨by omega, most, grown⟩
  · exact Or.inr failed

end Alloc

section Growproc

/-- `sz + n` for a `uint` and an `int`. -/
def addInt (sz : Nat) (n : Int) : Nat := ((sz + n) % 2 ^ 32).toNat

/-- What it returns, and the process afterwards. -/
def growproc (L : Layout) (p : Proc) (n : Int) : Exec State (Int × Proc) := do
  if 0 < n then
    let sz ← allocuvm L p.pgdir p.sz (addInt p.sz n)
    if sz = 0 then return (-1, p) else resize sz
  else if n < 0 then
    let sz ← deallocuvm L p.pgdir p.sz (addInt p.sz n)
    if sz = 0 then return (-1, p) else resize sz
  else resize p.sz
where
  resize (sz : Nat) : Exec State (Int × Proc) := do
    switchuvm { p with sz := sz }
    return (0, { p with sz := sz })

/-- Exactly the user pages below `sz` are mapped. -/
def MapsExactly (mem : Nat → Block) (d sz : Nat) : Prop :=
  ∀ a < UPAGES, (entryAt mem d a).isSome ↔ a < pagesOf sz

/-- The contents of a user page. -/
def userPage (mem : Nat → Block) (d a : Nat) : Option Block := (pageAt mem d a).map mem

/-- A process with an address space and a kernel stack of its own; `R` is what others have. -/
structure Proc.Sound (L : Layout) (s : State) (R : Multiset Nat) (p : Proc) : Prop where
  good : Good L (s.free + space s.mem p.pgdir + ({p.kstack} + R))
  maps : MapsExactly s.mem p.pgdir p.sz
  size : p.sz < KERNBASE

variable {p p' : Proc} {z : Int}

/-- The process has `z` bytes more. -/
structure Resized (s s' : State) (p p' : Proc) (z : Int) : Prop where
  proc : p' = { p with sz := p'.sz }
  size : (p'.sz : Int) = p.sz + z
  below : p'.sz < KERNBASE
  maps : MapsExactly s'.mem p.pgdir p'.sz
  kept : ∀ a, a < pagesOf p.sz → a < pagesOf p'.sz → userPage s'.mem p.pgdir a =
    userPage s.mem p.pgdir a
  zero : ∀ a, pagesOf p.sz ≤ a → a < pagesOf p'.sz → userPage s'.mem p.pgdir a = some fun _ => 0

/-- The process and its memory are as they were. -/
structure Untouched (s s' : State) (p p' : Proc) : Prop where
  proc : p' = p
  entries : ∀ a < UPAGES, entryAt s'.mem p.pgdir a = entryAt s.mem p.pgdir a
  pages : ∀ a < UPAGES, userPage s'.mem p.pgdir a = userPage s.mem p.pgdir a

theorem Moved.userPage (moved : Moved s s' d R lo hi) (within : a < UPAGES)
    (outside : a < lo ∨ hi ≤ a) :
    userPage s'.mem d a = userPage s.mem d a := by
  have same := moved.kept a (within.trans UPAGES_lt) outside
  have data := moved.data a within outside
  unfold Vm.userPage
  rw [pageAt, same]
  change (pageAt s.mem d a).map s'.mem = _
  cases here : pageAt s.mem d a with
  | none => rfl
  | some n => rw [Option.map_some, Option.map_some, data n here]

theorem Moved.untouched (moved : Moved s s' p.pgdir R lo lo) : Untouched s s' p p :=
  ⟨rfl, fun a within => moved.kept a (within.trans UPAGES_lt) (by omega), fun a within =>
    moved.userPage within (by omega)⟩

theorem switchuvm_spec (kstack : p.kstack ≠ 0) (pgdir : p.pgdir ≠ 0) :
    Spec allowed (switchuvm p) s fun _ s' => s' = s := by
  grind [switchuvm, Spec.pure]

section Sound

variable (lay : L.Fits) (sound : p.Sound L s R)

include sound

theorem Proc.Sound.unmapped :
    ∀ b, pagesOf p.sz ≤ b → b < UPAGES → entryAt s.mem p.pgdir b = none := by
  intro b from' within
  have maps := sound.maps b within
  cases here : entryAt s.mem p.pgdir b with
  | none => rfl
  | some w =>
    rw [here] at maps
    have := maps.mp rfl
    omega

theorem Proc.Sound.grown
    (grown : Grown s s' p.pgdir ({p.kstack} + R) (pagesOf p.sz) (pagesOf p'.sz))
    (proc : p' = { p with sz := p'.sz }) (more : p.sz ≤ p'.sz) (below : p'.sz < KERNBASE)
    (size : (p'.sz : Int) = p.sz + z) :
    Resized s s' p p' z := by
  have top := pagesOf_le (Nat.le_of_lt below)
  have mono := pagesOf_mono more
  refine ⟨proc, size, below, fun a within => ?_, fun a old new => ?_, fun a old new => ?_⟩
  · by_cases fresh : pagesOf p.sz ≤ a ∧ a < pagesOf p'.sz
    · obtain ⟨n, here, _⟩ := grown.fresh a fresh.1 fresh.2
      grind
    · rw [grown.moved.kept a (within.trans UPAGES_lt) (by omega), sound.maps a within]
      omega
  · exact grown.moved.userPage (by omega) (by omega)
  · obtain ⟨n, here, zero⟩ := grown.fresh a old new
    rw [userPage, pageAt, here, Option.map_some, Option.map_some,
      pageOf_mapWord n (by decide), zero]

theorem Proc.Sound.shrunk
    (shrunk : Shrunk s s' p.pgdir ({p.kstack} + R) (pagesOf p'.sz) (pagesOf p.sz))
    (proc : p' = { p with sz := p'.sz }) (less : p'.sz ≤ p.sz) (size : (p'.sz : Int) = p.sz + z) :
    Resized s s' p p' z := by
  have top := pagesOf_le (Nat.le_of_lt sound.size)
  have mono := pagesOf_mono less
  refine ⟨proc, size, less.trans_lt sound.size, fun a within => ?_, fun a old new => ?_,
    fun a old new => by omega⟩
  · by_cases gone : pagesOf p'.sz ≤ a ∧ a < pagesOf p.sz
    · grind [Shrunk.gone]
    · rw [shrunk.moved.kept a (within.trans UPAGES_lt) (by omega), sound.maps a within]
      omega
  · exact shrunk.moved.userPage (by omega) (by omega)

include lay

theorem growproc_resize (sz : Nat) : Spec allowed (growproc.resize p sz) s1 fun out s' =>
    out = (0, { p with sz := sz }) ∧ s' = s1 := by
  have kstack : p.kstack ≠ 0 := lay.ne_zero
    (sound.good.right.left.usable _ (Multiset.mem_singleton_self _))
  have pgdir : p.pgdir ≠ 0 := lay.ne_zero (sound.good.left.right.left.usable _ self_mem_frames)
  have switch : Spec allowed (switchuvm { p with sz := sz }) s1 fun _ s' => s' = s1 :=
    switchuvm_spec kstack pgdir
  refine Spec.bind switch ?_
  rintro _ s' same
  exact Spec.pure ⟨rfl, same⟩

theorem growproc_grows (small : z < 2 ^ 31) (more : 0 < z) :
    Spec allowed (growproc L p z) s fun out s' =>
    out.1 = 0 ∧ Resized s s' p out.2 z ∨ out.1 = -1 ∧ Untouched s s' p out.2 := by
  have size := sound.size
  have sum : addInt p.sz z = p.sz + z := by
    simp only [addInt, KERNBASE] at *
    omega
  unfold growproc
  rw [if_pos more]
  refine Spec.bind (allocuvm_spec lay sound.good sound.unmapped) ?_
  rintro r s1 (⟨new, below, grown⟩ | ⟨zero, moved⟩)
  · have larger : r = addInt p.sz z := by omega
    rw [if_neg (by omega)]
    refine Spec.mono (growproc_resize lay sound r) ?_
    grind [Proc.Sound.grown]
  · rw [if_pos zero]
    exact Spec.pure (Or.inr ⟨rfl, moved.untouched⟩)

theorem growproc_shrinks (less : z < 0) (left : 0 < p.sz + z) :
    Spec allowed (growproc L p z) s fun out s' =>
    out.1 = 0 ∧ Resized s s' p out.2 z := by
  have size := sound.size
  have sum : addInt p.sz z = p.sz + z := by
    simp only [addInt, KERNBASE] at *
    omega
  unfold growproc
  rw [if_neg (by omega), if_pos less]
  refine Spec.bind (deallocuvm_spec lay sound.good (Nat.le_of_lt size)) ?_
  rintro r s1 ⟨new, shrunk⟩
  have smaller : r = addInt p.sz z := by omega
  rw [if_neg (by omega)]
  refine Spec.mono (growproc_resize lay sound r) ?_
  grind [Proc.Sound.shrunk]

/-- All pages of the process are freed, and then 0 is taken for a failure. -/
theorem growproc_empties (all : p.sz + z = 0) (some : 0 < p.sz) :
    Spec allowed (growproc L p z) s fun out s' =>
    out = (-1, p) ∧ Shrunk s s' p.pgdir ({p.kstack} + R) 0 (pagesOf p.sz) := by
  have sum : addInt p.sz z = 0 := by
    simp only [addInt]
    omega
  unfold growproc
  rw [if_neg (by omega), if_pos (by omega), sum]
  refine Spec.bind (deallocuvm_spec lay sound.good (Nat.le_of_lt sound.size)) ?_
  rintro r s1 ⟨new, shrunk⟩
  rw [if_pos (by omega)]
  exact Spec.pure ⟨rfl, shrunk⟩

/-- The new size wraps around, and `deallocuvm` takes the process to be small enough. -/
theorem growproc_wraps (low : -2 ^ 31 ≤ z) (under : p.sz + z < 0) :
    Spec allowed (growproc L p z) s fun out s' =>
    out = (if p.sz = 0 then -1 else 0, p) ∧ s' = s := by
  have sum : p.sz ≤ addInt p.sz z := by
    simp only [addInt] at *
    omega
  unfold growproc deallocuvm
  rw [if_neg (by omega), if_pos (by omega), if_pos sum]
  rw [pure_bind]
  by_cases zero : p.sz = 0
  · grind [Spec.pure]
  · rw [if_neg zero, if_neg zero]
    exact growproc_resize lay sound p.sz

end Sound

/-- `growproc` is exact and atomic. -/
def GrowLaw (L : Layout) (s : State) (p : Proc) (z : Int) : Prop :=
  ∃ r p' s', growproc L p z s = .ok ((r, p'), s') ∧
    (r = 0 ∧ Resized s s' p p' z ∨ r = -1 ∧ Untouched s s' p p')

/-- It is, unless the process gives back all it has or more. -/
theorem growproc_exact_iff (lay : L.Fits) (sound : p.Sound L s R) (low : -2 ^ 31 ≤ z)
    (high : z < 2 ^ 31) :
    GrowLaw L s p z ↔ 0 ≤ z ∨ 0 < p.sz + z ∨ p.sz = 0 := by
  have law : ∀ {post : Int × Proc → State → Prop}, Spec Stops.nothing (growproc L p z) s post →
      (∀ out s', post out s' → out.1 = 0 ∧ Resized s s' p out.2 z ∨ out.1 = -1 ∧
      Untouched s s' p out.2) → GrowLaw L s p z := by
    intro post spec imply
    obtain ⟨out, s', ran, holds⟩ := spec.total
    exact ⟨out.1, out.2, s', ran, imply out s' holds⟩
  constructor
  · rintro ⟨r, p', s', ran, held⟩
    by_contra other
    by_cases all : p.sz + z = 0
    · have spec : Spec Stops.nothing (growproc L p z) s _ := growproc_empties lay sound all
        (by omega)
      obtain ⟨same, shrunk⟩ := spec.ok ran
      have first : 0 < pagesOf p.sz := (lt_iff_lt_pagesOf p.sz 0).mp (by omega)
      have mapped := (sound.maps 0 (by decide)).mpr first
      rcases held with ⟨zero, _⟩ | ⟨_, untouched⟩
      · cases same
        exact absurd zero (by decide)
      · rw [← untouched.entries 0 (by decide), shrunk.gone 0 (Nat.le_refl 0) first] at mapped
        exact absurd mapped (by decide)
    · have spec : Spec Stops.nothing (growproc L p z) s _ := growproc_wraps lay sound low (by omega)
      obtain ⟨same, _⟩ := spec.ok ran
      rw [if_neg (by omega)] at same
      cases same
      rcases held with ⟨_, resized⟩ | ⟨failed, _⟩
      · have size := resized.size
        omega
      · exact absurd failed (by decide)
  · intro fine
    by_cases more : 0 < z
    · exact law (growproc_grows lay sound high more) fun _ _ either => either
    · by_cases none : z = 0
      · have spec : Spec Stops.nothing (growproc L p z) s fun out s' => out = (0, p) ∧ s' = s := by
          unfold growproc
          rw [if_neg more, if_neg (by omega)]
          exact growproc_resize lay sound p.sz
        refine law spec ?_
        rintro out s' ⟨rfl, rfl⟩
        exact Or.inl ⟨rfl, sound.grown (Grown.refl (Nat.le_refl _)) rfl (Nat.le_refl _) sound.size
          (by dsimp only; omega)⟩
      · by_cases left : 0 < p.sz + z
        · exact law (growproc_shrinks lay sound (by omega) left) fun _ _ resized => Or.inl resized
        · refine law (growproc_wraps lay sound low (by omega)) ?_
          rintro out s' ⟨rfl, rfl⟩
          rw [if_pos (by omega)]
          exact Or.inr ⟨rfl, rfl, fun _ _ => rfl, fun _ _ => rfl⟩

section OnePage

/-- A kernel of 4 megabytes. -/
def smallKernel : Layout := layout (KERNLINK + 0x8000) (KERNBASE + 0x400000)

theorem smallKernel_fits : smallKernel.Fits := ⟨by decide, by decide⟩

/-- A directory, a page table and one page, and a page that is free. -/
def onePage : State where
  mem := Function.update (installed (fun _ _ => 0) 1024 0 1025) 1025
    (set32 (installed (fun _ _ => 0) 1024 0 1025 1025) 0 (mapWord 1026 (PTE_W ||| PTE_U)))
  freelist := [1028]
  asked := 0
  refuse := fun _ => false

def oneProc : Proc := ⟨1024, 1027, PGSIZE, 0, 0, []⟩

theorem onePage_table : frames (installed (fun _ _ => 0) 1024 0 1025) 1024 = {1024} + {1025} ∧
    tableOf (installed (fun _ _ => 0) 1024 0 1025) 1024 0 = some 1025 := by
  constructor
  · rw [frames_installed (by decide) (tableOf_blank rfl 0) (by decide), frames_blank rfl]
  · rw [tableOf_installed (by decide), Function.update_self]

theorem entryAt_onePage {b : Nat} (within : b < 2 ^ 20) :
    entryAt onePage.mem 1024 b = if b = 0 then some (mapWord 1026 (PTE_W ||| PTE_U)) else none := by
  have once : (frames (installed (fun _ _ => 0) 1024 0 1025) 1024).Nodup := by
    rw [onePage_table.1]
    decide
  have zero : entryAt (fun _ _ => 0) 1024 b = none := entryAt_blank rfl b
  have set := entryAt_setEntry (v := mapWord 1026 (PTE_W ||| PTE_U)) once
    (show 0 < 2 ^ 20 by decide) onePage_table.2 (by decide) within
  rw [entry_mapWord, entryAt_installed (by rw [frames_blank rfl]; decide) (by decide)
    (tableOf_blank rfl 0) (by rw [frames_blank rfl]; decide) within, zero] at set
  exact set

theorem frames_onePage : frames onePage.mem 1024 = {1024} + {1025} := by
  have once : (frames (installed (fun _ _ => 0) 1024 0 1025) 1024).Nodup := by
    rw [onePage_table.1]
    decide
  exact (frames_setEntry once (show 0 < 2 ^ 20 by decide) onePage_table.2).trans onePage_table.1

theorem space_onePage : space onePage.mem 1024 = {1024} + {1025} + {1026} := by
  have leaf : leaves onePage.mem 1024 = {1026} := by
    have put := contents_put (f := fun _ => none)
      (mem_upages.mpr (show 0 < UPAGES by decide)) rfl 1026
    rw [contents_empty (fun _ _ => rfl), zero_add] at put
    rw [← put]
    refine contents_congr fun b inside => ?_
    rw [pageAt, entryAt_onePage ((mem_upages.mp inside).trans UPAGES_lt)]
    grind [Function.update_self, pageOf_mapWord, Function.update_of_ne]
  rw [space, frames_onePage, leaf]

theorem oneProc_sound : oneProc.Sound smallKernel onePage 0 := by
  refine ⟨⟨?_, ?_⟩, fun a within => ?_, by decide⟩
  · change (onePage.free + space onePage.mem 1024 + ({1027} + 0)).Nodup
    rw [space_onePage]
    decide
  · change ∀ n ∈ onePage.free + space onePage.mem 1024 + ({1027} + 0), _
    rw [space_onePage]
    unfold Layout.Usable
    decide
  · change (entryAt onePage.mem 1024 a).isSome ↔ a < 1
    rw [entryAt_onePage (within.trans UPAGES_lt)]
    simp

theorem growproc_exact_one : GrowLaw smallKernel onePage oneProc PGSIZE :=
  (growproc_exact_iff smallKernel_fits oneProc_sound (by decide) (by decide)).mpr (by decide)

/-- A process that gives back its only page has lost it, and is told that it failed. -/
theorem growproc_loses_all :
    ¬ ∀ (L : Layout) (s : State) (R : Multiset Nat) (p : Proc) (z : Int), L.Fits → p.Sound L s R →
    -2 ^ 31 ≤ z → z < 2 ^ 31 → GrowLaw L s p z := by
  intro always
  obtain ⟨r, p', s', ran, held⟩ :=
    always smallKernel onePage 0 oneProc (-PGSIZE) smallKernel_fits oneProc_sound (by decide)
      (by decide)
  have spec : Spec Stops.nothing (growproc smallKernel oneProc (-PGSIZE)) onePage _ :=
    growproc_empties smallKernel_fits oneProc_sound rfl (by decide)
  obtain ⟨same, shrunk⟩ := spec.ok ran
  cases same
  rcases held with ⟨zero, _⟩ | ⟨_, untouched⟩
  · exact absurd zero (by decide)
  · have entry := untouched.entries 0 (by decide)
    rw [shrunk.gone 0 (Nat.le_refl 0) (by decide)] at entry
    change none = entryAt onePage.mem 1024 0 at entry
    rw [entryAt_onePage (by decide), if_pos rfl] at entry
    cases entry

end OnePage

end Growproc

end Xv6.Vm
