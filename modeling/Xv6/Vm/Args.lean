import Xv6.Vm.Stack

/- The arguments of a program on its stack. -/
namespace Xv6.Vm

open Exec hiding panic
open Contents
open Fs (Block get32 set32 overwrite bytes32)

variable {L : Layout} {allowed : Stops} {s s' s1 s2 : State} {d n b top sz sp esp m : Nat}
  {R : Multiset Nat} {mem : Nat → Block} {argv : List CStr} {placed : List (CStr × Nat)}

/-- What is on the stack from `esp` on, as addresses and lengths: return address, argc, argv, the
array that argv points to, and the strings. -/
def objects (esp : Nat) (argv : List CStr) (pointers : List Nat) : List (Nat × Nat) :=
  [(esp, 4), (esp + 4, 4), (esp + 8, 4), (esp + 12, 4 * (argv.length + 1))] ++
    (argv.zip pointers).map fun x => (x.2, x.1.bytes.length + 1)

/-- The arguments as `main` finds them, in the last page of `top`. -/
structure ArgLayout (mem : Nat → Block) (d top esp : Nat) (argv : List CStr) (pointers : List Nat) :
    Prop where
  count : pointers.length = argv.length
  return_pc : userWord mem d esp = some 0xffffffff
  argc : userWord mem d (esp + 4) = some argv.length
  argv_pointer : userWord mem d (esp + 8) = some (esp + 12)
  array : ∀ i < argv.length, userWord mem d (esp + 12 + 4 * i) = some (pointers.getD i 0)
  null : userWord mem d (esp + 12 + 4 * argv.length) = some 0
  strings : ∀ x ∈ argv.zip pointers, BytesAt mem d x.2 (x.1.bytes ++ [0])
  apart : (objects esp argv pointers).Pairwise fun x y => x.1 + x.2 ≤ y.1 ∨ y.1 + y.2 ≤ x.1
  inside : ∀ x ∈ objects esp argv pointers, PGSIZE * (top - 1) ≤ x.1 ∧ x.1 + x.2 ≤ PGSIZE * top

section Layout

variable (pushed : Pushed mem d top sp placed) (room : PGSIZE * (top - 1) + 4 *
  (placed.length + 4) ≤ sp) (bound : PGSIZE * top < KERNBASE)

theorem length_ustackOf (argc sp : Nat) (pointers : List Nat) :
    (ustackOf argc sp pointers).length = pointers.length + 4 := by
  simp only [ustackOf, List.length_append, List.length_cons, List.length_nil]
  omega

theorem ustackOf_head (argc sp : Nat) (pointers : List Nat) :
    (ustackOf argc sp pointers).getD 0 0 = 0xffffffff ∧
    (ustackOf argc sp pointers).getD 1 0 = argc ∧
    (ustackOf argc sp pointers).getD 2 0 = sub32 sp ((argc + 1) * 4) := by
  simp only [ustackOf, List.cons_append, List.getD_cons_zero, List.getD_cons_succ, and_self]

theorem ustackOf_pointer (argc sp : Nat) {pointers : List Nat} {i : Nat}
    (less : i < pointers.length) :
    (ustackOf argc sp pointers).getD (i + 3) 0 = pointers.getD i 0 := by
  rw [ustackOf, List.append_assoc, List.getD_append_right _ _ _ _ (Nat.le_add_left 3 i)]
  exact List.getD_append _ _ _ _ less

theorem ustackOf_null (argc sp : Nat) (pointers : List Nat) :
    (ustackOf argc sp pointers).getD (pointers.length + 3) 0 = 0 := by
  change (pointers ++ [0]).getD pointers.length 0 = 0
  simp

theorem zip_placed (placed : List (CStr × Nat)) :
    (placed.map Prod.fst).zip (placed.map Prod.snd) = placed := by
  rw [List.zip_map', List.map_id']

include pushed room

theorem objects_apart :
    (objects (sp - 4 * (placed.length + 4)) (placed.map Prod.fst) (placed.map Prod.snd)).Pairwise
    fun x y => x.1 + x.2 ≤ y.1 ∨ y.1 + y.2 ≤ x.1 := by
  unfold objects
  rw [zip_placed, List.length_map]
  refine List.pairwise_append.mpr ⟨?_, ?_, ?_⟩
  · simp
  · refine List.pairwise_map.mpr (pushed.apart.imp fun below => ?_)
    exact Or.inr below
  · intro x first y second
    obtain ⟨z, member, rfl⟩ := List.mem_map.mp second
    have above := (pushed.strings z member).1
    simp only [List.mem_cons, List.not_mem_nil, or_false] at first
    rcases first with rfl | rfl | rfl | rfl <;> dsimp only <;> omega

theorem objects_inside :
    ∀ x ∈ objects (sp - 4 * (placed.length + 4)) (placed.map Prod.fst) (placed.map Prod.snd),
    PGSIZE * (top - 1) ≤ x.1 ∧ x.1 + x.2 ≤ PGSIZE * top := by
  have high := pushed.high
  unfold objects
  rw [zip_placed, List.length_map]
  intro x member
  rcases List.mem_append.mp member with first | second
  · simp only [List.mem_cons, List.not_mem_nil, or_false] at first
    rcases first with rfl | rfl | rfl | rfl <;> dsimp only <;> omega
  · obtain ⟨z, old, rfl⟩ := List.mem_map.mp second
    obtain ⟨above, below, _⟩ := pushed.strings z old
    omega

include bound

/-- The words of `ustack` below the strings. -/
theorem Pushed.layout (few : placed.length ≤ MAXARG)
    (words : BytesAt mem d (sp - 4 * (placed.length + 4))
      ((ustackOf placed.length sp (placed.map Prod.snd)).flatMap bytes32)) :
    ArgLayout mem d top (sp - 4 * (placed.length + 4)) (placed.map Prod.fst)
      (placed.map Prod.snd) := by
  have high := pushed.high
  have third : sub32 sp ((placed.length + 1) * 4) = sp - 4 * (placed.length + 4) + 12 := by
    simp only [sub32, PGSIZE, KERNBASE] at *
    omega
  have fits : ∀ v ∈ ustackOf placed.length sp (placed.map Prod.snd), v < 2 ^ 32 := by
    intro v member
    rw [ustackOf, third] at member
    simp only [List.mem_append, List.mem_cons, List.not_mem_nil, or_false] at member
    simp only [PGSIZE, KERNBASE, MAXARG] at *
    rcases member with ((rfl | rfl | rfl) | pointer) | rfl
    · decide
    · omega
    · omega
    · obtain ⟨z, old, rfl⟩ := List.mem_map.mp pointer
      have below := (pushed.strings z old).2.1
      simp only [PGSIZE] at below
      omega
    · decide
  have word : ∀ i < placed.length + 4, userWord mem d (sp - 4 * (placed.length + 4) + 4 * i) =
      some ((ustackOf placed.length sp (placed.map Prod.snd)).getD i 0) := by
    intro i less
    refine userWord_flatMap _ fits words ?_
    rw [length_ustackOf, List.length_map]
    exact less
  obtain ⟨first, second, pointer⟩ := ustackOf_head placed.length sp (placed.map Prod.snd)
  have apart := objects_apart pushed room
  have inside := objects_inside pushed room
  generalize sp - 4 * (placed.length + 4) = esp at *
  refine ⟨?_, ?_, ?_, ?_, fun i less => ?_, ?_, ?_, apart, inside⟩
  · rw [List.length_map, List.length_map]
  · have here := word 0 (by omega)
    rwa [Nat.mul_zero, Nat.add_zero, first] at here
  · have here := word 1 (by omega)
    rwa [second, Nat.mul_one, ← List.length_map Prod.fst] at here
  · have here := word 2 (by omega)
    rwa [pointer, third] at here
  · rw [List.length_map] at less
    have here := word (i + 3) (by omega)
    rwa [ustackOf_pointer _ _ (by rwa [List.length_map]), show esp + 4 * (i + 3) = esp + 12 + 4 *
      i by omega] at here
  · have here := word (placed.length + 3) (by omega)
    rw [show esp + 4 * (placed.length + 3) = esp + 12 + 4 *
      placed.length by omega, ← List.length_map Prod.snd, ustackOf_null] at here
    rwa [List.length_map] at here ⊢
  · rw [zip_placed]
    exact fun x member => (pushed.strings x member).2.2

end Layout

section Stack

/-- Two pages above the image, and the lower one hidden from the user. -/
theorem Loading.stacked (loading : Loading L s s1 d R sz)
    (bound : PGSIZE * (pagesOf sz + 2) < KERNBASE)
    (grown : Grown s1 s2 d R (pagesOf sz) (pagesOf sz + 2))
    (moved : Moved s2 s' d R (pagesOf sz) (pagesOf sz + 1))
    (guard : entryAt s'.mem d (pagesOf sz) = some (mapWord n PTE_W)) :
    Stacked L s s' d R (pagesOf sz + 2) := by
  have small := UPAGES_lt
  have top : pagesOf sz + 2 ≤ UPAGES := by grind
  refine ⟨(loading.image.moved grown.moved top).moved moved (by omega),
    bound, by omega, fun b below other => ?_, ⟨n, guard⟩, fun b above within => ?_⟩
  · rw [moved.kept b (by omega) (by omega)]
    by_cases fresh : pagesOf sz ≤ b
    · obtain ⟨m, here, _⟩ := grown.fresh b fresh below
      exact ⟨m, here⟩
    · rw [grown.moved.kept b (by omega) (by omega)]
      exact loading.user b (by omega)
  · rw [moved.kept b (by omega) (by omega), grown.moved.kept b (by omega) (by omega)]
    exact loading.rest b (by omega) within

/-- What `setStack` leaves: an image to be freed, or one with the arguments. -/
def StackResult (L : Layout) (s s1 : State) (d : Nat) (R : Multiset Nat) (sz : Nat)
    (argv : List CStr) (result : Option (Nat × Nat)) (s' : State) : Prop :=
  match result with
  | none => Image L s s' d R
  | some (sz', esp) => sz' = PGSIZE * (pagesOf sz + 2) ∧ Stacked L s s' d R (pagesOf sz + 2) ∧
      Moved s1 s' d R (pagesOf sz) (pagesOf sz + 2) ∧ ∃ pointers,
      ArgLayout s'.mem d (pagesOf sz + 2) esp argv pointers

/-- Bytes of stack for the strings. -/
def argSize (argv : List CStr) : Nat := (argv.map fun arg => pushSize (arg.bytes.length + 1)).sum

/-- The words go below the strings, in the same page or not at all. -/
theorem ustack_spec (lay : L.Sound) (good : Good L (s.free + R)) (stacked : Stacked L s s1 d R top)
    (pushed : Pushed s1.mem d top sp placed) (few : placed.length ≤ MAXARG) :
    Spec allowed (copyout d (sub32 sp ((3 + placed.length + 1) * 4))
      ((ustackOf placed.length sp (placed.map Prod.snd)).flatMap bytes32)) s1 fun r s' =>
      r = 0 ∧ Wrote s1 s' d R (top - 1) top ∧ ArgLayout s'.mem d top
        (sub32 sp ((3 + placed.length + 1) * 4))
          (placed.map Prod.fst) (placed.map Prod.snd) ∨ r = -1 ∧ Image L s s' d R := by
  obtain ⟨m, stack, _⟩ := stacked.stack
  have two := stacked.two
  have less := stacked.top_lt
  have bound := stacked.bound
  have good1 := stacked.image.good good
  have low := pushed.low
  have high := pushed.high
  have aligned := pushed.aligned
  have length : ((ustackOf placed.length sp (placed.map Prod.snd)).flatMap bytes32).length = 4 *
    (placed.length + 4) := by
    rw [length_flatMap_bytes32, length_ustackOf, List.length_map]
  have size : pushSize (4 * (placed.length + 4)) = 4 * (placed.length + 4) := by
    unfold pushSize
    omega
  have address : sub32 sp ((3 + placed.length + 1) * 4) = sp - 4 * (placed.length + 4) ∧
      sub32 sp (4 * (placed.length + 4)) / 4 * 4 = sp - 4 * (placed.length + 4) := by
    simp only [sub32, PGSIZE, KERNBASE, MAXARG] at *
    omega
  have some : (ustackOf placed.length sp (placed.map Prod.snd)).flatMap bytes32 ≠ [] := by grind
  have short : ((ustackOf placed.length sp (placed.map Prod.snd)).flatMap bytes32).length ≤
    KERNBASE := by
    simp only [KERNBASE, MAXARG] at *
    omega
  have enough : pushSize ((ustackOf placed.length sp (placed.map Prod.snd)).flatMap bytes32).length
    ≤ sp ∨ allowed.waits := by
    grind
  have push := stacked.push lay good stack low high aligned some short enough
  rw [length, size, address.2] at push
  rw [address.1]
  refine Spec.mono push ?_
  rintro r s' (⟨zero, room, rfl⟩ | failed)
  · left
    have start : (sp - 4 * (placed.length + 4)) / PGSIZE = top - 1 := by
      simp only [PGSIZE] at *
      omega
    have fits : (sp - 4 * (placed.length + 4)) % PGSIZE +
        ((ustackOf placed.length sp (placed.map Prod.snd)).flatMap bytes32).length ≤ PGSIZE := by
      simp only [PGSIZE] at *
      omega
    have wrote := good1.putLeaf (show top - 1 < UPAGES by omega) stack (overwrite (s1.mem m)
      ((sp - 4 * (placed.length + 4)) % PGSIZE)
      ((ustackOf placed.length sp (placed.map Prod.snd)).flatMap bytes32))
    have words := bytesAt_put good1 (show top - 1 < UPAGES by omega) stack start fits
    have pushed' : Pushed (s1.putPage m (overwrite (s1.mem m)
      ((sp - 4 * (placed.length + 4)) % PGSIZE)
        ((ustackOf placed.length sp (placed.map Prod.snd)).flatMap bytes32))).mem d top sp
        placed := by
      refine ⟨low, high, aligned, fun x member => ?_, pushed.apart⟩
      obtain ⟨above, below, there⟩ := pushed.strings x member
      refine ⟨above, below, there.put good1 (by omega) stack start fits ?_ ?_⟩
      · grind
      · omega
    exact ⟨zero, wrote.widen (by omega), pushed'.layout (by omega) bound few words⟩
  · exact Or.inr failed

theorem setStack_spec (lay : L.Sound) (good : Good L (s.free + R)) (loading : Loading L s s1 d R sz)
    (fits : argSize argv ≤ PGSIZE * (pagesOf sz + 2) ∨ allowed.waits) :
    Spec allowed (setStack L d argv sz) s1 fun r s' => StackResult L s s1 d R sz argv r s' := by
  have size := loading.size
  have user := pagesOf_le (Nat.le_of_lt size)
  have whole : ∀ k, pagesOf (PGSIZE * k) = k := by
    simp only [pagesOf, PGSIZE]
    omega
  have sum : add32 (PGSIZE * pagesOf sz) (2 * PGSIZE) = PGSIZE * (pagesOf sz + 2) := by
    simp only [add32, PGSIZE, UPAGES, KERNBASE] at *
    omega
  unfold setStack
  rw [PGROUNDUP_eq (Nat.le_of_lt size), sum]
  have alloc : Spec allowed (allocuvm L d (PGSIZE * pagesOf sz) (PGSIZE * (pagesOf sz + 2))) s1 _ :=
    allocuvm_spec lay.toFits (loading.image.good good) (by rw [whole]; exact loading.rest)
  rw [whole, whole] at alloc
  refine Spec.bind alloc ?_
  rintro new s2 (⟨larger, below, grown⟩ | ⟨zero, moved⟩)
  · have same : new = PGSIZE * (pagesOf sz + 2) := by grind
    have lower : sub32 (PGSIZE * (pagesOf sz + 2)) (2 * PGSIZE) = PGSIZE * pagesOf sz := by
      simp only [sub32, PGSIZE, KERNBASE] at *
      omega
    have top : pagesOf sz + 2 ≤ UPAGES := by grind
    rw [same, if_neg (by simp only [PGSIZE]; omega), lower]
    obtain ⟨n, here, _⟩ := grown.fresh (pagesOf sz) (Nat.le_refl _) (by omega)
    have image2 := loading.image.moved grown.moved top
    refine Spec.bind (clearpteu_spec lay.toFits (image2.good good) (by omega) here) ?_
    rintro _ s3 ⟨cleared, guard⟩
    have stacked := loading.stacked below grown cleared guard
    have empty : Pushed s3.mem d (pagesOf sz + 2) (PGSIZE * (pagesOf sz + 2)) [] := by
      refine ⟨Nat.mul_le_mul_left PGSIZE (Nat.sub_le _ 1), Nat.le_refl _, ?_, List.forall_mem_nil _,
        List.Pairwise.nil⟩
      simp only [PGSIZE]
      omega
    have frame : Moved s1 s3 d R (pagesOf sz) (pagesOf sz + 2) :=
      grown.moved.trans (cleared.widen (by omega))
    refine Spec.bind (pushArgs_spec argv lay good stacked empty fits) ?_
    intro r s4 pushed
    cases r with
    | none => exact Spec.pure pushed
    | some pair =>
      obtain ⟨sp, ustack⟩ := pair
      obtain ⟨stacked4, wrote4, count, placed, rfl, strings, pushed⟩ := pushed
      rw [List.map_nil, List.nil_append] at strings
      have few : placed.length ≤ MAXARG := by
        have most := count (Nat.zero_le _)
        rw [← strings, List.length_map, Nat.zero_add] at most
        exact most
      have argc : argv.length = placed.length := by rw [← strings, List.length_map]
      rw [argc]
      refine Spec.bind (ustack_spec lay good stacked4 pushed few) ?_
      rintro r s5 (⟨rfl, wrote5, layout⟩ | ⟨rfl, image⟩)
      · rw [strings] at layout
        refine Spec.pure ⟨rfl, stacked4.wrote wrote5 top, ?_, _, layout⟩
        exact (frame.trans (wrote4.moved.widen (by omega))).trans (wrote5.moved.widen (by omega))
      · exact Spec.pure image
  · rw [if_pos zero]
    exact Spec.pure (loading.image.moved moved user)

end Stack

end Xv6.Vm
