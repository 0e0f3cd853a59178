import Xv6.Vm.Args

/- `exec` as a whole: it replaces the image of the process, or leaves no trace. -/
namespace Xv6.Vm

open Exec hiding panic
open Contents
open Fs (Block overwrite Elfhdr Proghdr ELF_MAGIC ELFHDRSIZE PROGHDRSIZE uintAt)

variable {φ ι : Type} {files : Files φ ι} {L : Layout} {allowed : Stops} {s s' s1 s2 : State}
  {d b top sz : Nat} {R : Multiset Nat} {p p' : Proc} {path : List UInt8} {argv : List CStr} {f : φ}
  {I : ι → φ → Prop} {J : φ → Prop} {Q : ι → Nat → Nat → Int × List UInt8 → Prop}

/-- What `exec` needs to know of the file system: `I` holds while the file is locked, and then `Q`
of its reads; `J` holds when it is not. -/
structure Serves (allowed : Stops) (files : Files φ ι) (I : ι → φ → Prop) (J : φ → Prop)
    (Q : ι → Nat → Nat → Int × List UInt8 → Prop) (path : List UInt8) (f : φ) : Prop where
  namei : Spec allowed (files.namei path) f fun r f' => (r = none → J f') ∧
    ∀ ip, r = some ip → Spec allowed (files.ilock ip) f' fun _ f'' => I ip f''
  reads : ∀ ip, Reads allowed files ip (I ip) (Q ip)
  unlock : ∀ ip f, I ip f → Spec allowed (files.iunlockput ip) f fun _ f' => J f'

/-- Nothing need be known of a file system if it may stop in any way. -/
theorem serves_any (files : Files φ ι) (path : List UInt8) (f : φ) :
    Serves Stops.all files (fun _ _ => True) (fun _ => True) (fun _ _ _ _ => True) path f := by
  refine ⟨Spec.mono (Spec.any _ _) fun _ _ _ => ⟨fun _ => trivial, fun _ _ => Spec.any _ _⟩,
    fun _ => ⟨fun _ _ _ _ _ _ => ?_⟩, fun _ _ _ => Spec.any _ _⟩
  exact Spec.mono (Spec.any _ _) fun _ _ _ => ⟨trivial, trivial⟩

/-- The program headers `H` of the file: its header can be read, is that of a program, and so can
they. -/
structure IsElf (Q : Nat → Nat → Int × List UInt8 → Prop) (H : List Proghdr) : Prop where
  headers : ∃ bytes, Q 0 ELFHDRSIZE (ELFHDRSIZE, bytes) ∧ (Elfhdr.ofBytes bytes).magic = ELF_MAGIC ∧
    Headers Q (Elfhdr.ofBytes bytes).phnum (Elfhdr.ofBytes bytes).phoff H

/-- Where the stack ends, above the segments. -/
def stackTop (H : List Proghdr) : Nat := PGSIZE * (pagesOf (imageSize 0 (loads H)) + 2)

theorem pagesOf_stackTop (H : List Proghdr) :
    pagesOf (stackTop H) = pagesOf (imageSize 0 (loads H)) + 2 := by
  simp only [stackTop, pagesOf, PGSIZE]
  omega

/-- The process has a new address space with the program of headers `H`. -/
structure Replaced (L : Layout) (Q : Nat → Nat → Int × List UInt8 → Prop) (H : List Proghdr)
    (s s' : State) (p p' : Proc) (R : Multiset Nat) (argv : List CStr) : Prop where
  pages : s'.free + space s'.mem p'.pgdir = s.free + space s.mem p.pgdir
  frame : ∀ n ∈ {p.kstack} + R, s'.mem n = s.mem n
  kstack : p'.kstack = p.kstack
  size : p'.sz = stackTop H
  bound : stackTop H < KERNBASE
  user : ∀ b < pagesOf (stackTop H), ∃ n perm, entryAt s'.mem p'.pgdir b = some (mapWord n perm) ∧
    perm = if b = pagesOf (imageSize 0 (loads H)) then PTE_W else PTE_W ||| PTE_U
  rest : ∀ b, pagesOf (stackTop H) ≤ b → b < UPAGES → entryAt s'.mem p'.pgdir b = none
  kernel : ∀ b, UPAGES ≤ b → b < 2 ^ 20 → entryAt s'.mem p'.pgdir b = L.entryFor b
  segments : Holds Q s' p'.pgdir (imageSize 0 (loads H)) (loads H)
  args : ∃ pointers, ArgLayout s'.mem p'.pgdir (pagesOf (imageSize 0 (loads H)) + 2) p'.esp
    argv pointers

/-- Nothing is left of the attempt. -/
structure NoTrace (s s' : State) (p p' : Proc) (R : Multiset Nat) : Prop where
  proc : p' = p
  free : s'.free = s.free
  frame : ∀ n ∈ space s.mem p.pgdir + ({p.kstack} + R), s'.mem n = s.mem n

/-- The segments are in the pages below `sz`. -/
theorem Holds.congr {Q : Nat → Nat → Int × List UInt8 → Prop} {D : List Proghdr}
    (same : ∀ b < pagesOf sz, userPage s'.mem d b = userPage s.mem d b) (holds : Holds Q s d sz D) :
    Holds Q s' d sz D := by
  refine ⟨holds.valid, fun apart ph member b inside => ?_, fun apart b below outside => ?_⟩
  · have reach : b < pagesOf sz := Nat.lt_of_lt_of_le inside.2
      (pagesOf_mono (holds.valid ph member).2.2)
    exact segmentPage_congr (same b reach) (holds.pages apart ph member b inside)
  · grind [zero]

section Transfer

variable (same : ∀ n ∈ space s.mem d, s'.mem n = s.mem n)

include same

theorem entryAt_transfer (within : b < 2 ^ 20) : entryAt s'.mem d b = entryAt s.mem d b :=
  entryAt_congr (fun n member => same n (Multiset.mem_add.mpr (Or.inl member))) within

theorem userPage_transfer (within : b < UPAGES) : userPage s'.mem d b = userPage s.mem d b := by
  have entry : pageAt s'.mem d b = pageAt s.mem d b := by
    rw [pageAt, pageAt, entryAt_transfer same (within.trans UPAGES_lt)]
  rw [userPage, userPage, entry]
  cases here : pageAt s.mem d b with
  | none => rfl
  | some n => rw [Option.map_some, Option.map_some,
      same n (Multiset.mem_add.mpr (Or.inr (page_mem_leaves within here)))]

theorem userByte_transfer {va : Nat} (user : va < KERNBASE) :
    userByte s'.mem d va = userByte s.mem d va := by
  rw [userByte, userByte, userPage_transfer same
    (by simp only [PGSIZE, UPAGES, KERNBASE] at *; omega)]

theorem userWord_transfer {va : Nat} (user : va + 4 ≤ KERNBASE) :
    userWord s'.mem d va = userWord s.mem d va := by
  grind [userWord, userByte_transfer]

theorem ArgLayout.transfer {esp : Nat} {pointers : List Nat} (bound : PGSIZE * top < KERNBASE)
    (layout : ArgLayout s.mem d top esp argv pointers) :
    ArgLayout s'.mem d top esp argv pointers := by
  have most : esp + 12 + 4 * (argv.length + 1) ≤ PGSIZE * top := by
    refine (layout.inside (esp + 12, 4 * (argv.length + 1)) (List.mem_append.mpr (Or.inl ?_))).2
    simp only [List.mem_cons, true_or, or_true]
  refine ⟨layout.count, ?_, ?_, ?_, fun i less => ?_, ?_, fun x member k less => ?_, layout.apart,
    layout.inside⟩
  · rw [userWord_transfer same (by omega), layout.return_pc]
  · rw [userWord_transfer same (by omega), layout.argc]
  · rw [userWord_transfer same (by omega), layout.argv_pointer]
  · rw [userWord_transfer same (by omega), layout.array i less]
  · rw [userWord_transfer same (by omega), layout.null]
  · have string : x.2 + (x.1.bytes.length + 1) ≤ PGSIZE * top :=
      (layout.inside (x.2, x.1.bytes.length + 1)
        (List.mem_append.mpr (Or.inr (List.mem_map.mpr ⟨x, member, rfl⟩)))).2
    rw [userByte_transfer same (by rw [List.length_append, List.length_singleton] at less; omega)]
    exact layout.strings x member k less

end Transfer

section Exec

variable (lay : L.Sound) (good : Good L (s.free + (space s.mem p.pgdir + ({p.kstack} + R))))

include lay good

/-- The way out on an error: the new address space is freed, if there is one. -/
theorem bad_spec {ip : Option ι}
    (unlock : ∀ i, ip = some i → Spec allowed (files.iunlockput i) f fun _ f' => J f')
    (unlocked : ip = none → J f)
    (made : d = 0 ∧ NoTrace s s1 p p R ∨ d ≠ 0 ∧
      Image L s s1 d (space s.mem p.pgdir + ({p.kstack} + R))) :
    Spec allowed (exec.bad files L p d ip) (f, s1) fun out x => J x.1 ∧ out.1 = -1 ∧
      NoTrace s x.2 p out.2 R := by
  have freed : Spec allowed (when (d ≠ 0) (onSecond (freevm L d))) (f, s1) fun _ x =>
    x.1 = f ∧ NoTrace s x.2 p p R := by
    refine Spec.when (fun new => ?_) fun old => ?_
    · have image := (made.resolve_left fun none => new none.1).2
      have free : Spec allowed (freevm L d) (f, s1).2 _ := freevm_spec lay.toFits (image.good good)
      refine Spec.mono free.onSecond ?_
      rintro _ x ⟨⟨pages, frame⟩, still⟩
      exact ⟨still, rfl, pages.trans image.pages, fun n member => (frame n member).trans
        (image.frame n member)⟩
    · exact ⟨rfl, (made.resolve_right fun new => old new.1).2⟩
  refine Spec.bind freed ?_
  rintro _ ⟨f1, s2⟩ ⟨still, trace⟩
  subst still
  cases ip with
  | none => exact Spec.pure ⟨unlocked rfl, rfl, trace⟩
  | some i =>
    have unlock : Spec allowed (files.iunlockput i) (f1, s2).1 _ := unlock i rfl
    refine Spec.bind unlock.onFirst ?_
    grind [Spec.pure]

/-- The old address space is freed when the new one is in place. -/
theorem commit_spec {Q : Nat → Nat → Int × List UInt8 → Prop} {H : List Proghdr}
    (stacked : Stacked L s s1 p'.pgdir (space s.mem p.pgdir + ({p.kstack} + R))
      (pagesOf (imageSize 0 (loads H)) + 2))
    (holds : Holds Q s1 p'.pgdir (imageSize 0 (loads H)) (loads H))
    (args : ∃ pointers, ArgLayout s1.mem p'.pgdir (pagesOf (imageSize 0 (loads H)) + 2) p'.esp
      argv pointers)
    (kstack : p'.kstack = p.kstack) (size : p'.sz = stackTop H) :
    Spec allowed (freevm L p.pgdir) s1 fun _ s' => Replaced L Q H s s' p p' R argv := by
  have small := UPAGES_lt
  have top := stacked.top_lt
  have bound := stacked.bound
  have whole := pagesOf_stackTop H
  have old : space s1.mem p.pgdir = space s.mem p.pgdir := by
    refine space_congr fun n member => stacked.image.frame n ?_
    exact Multiset.mem_add.mpr (Or.inl (Multiset.mem_add.mpr (Or.inl member)))
  have shares : Good L (s1.free + space s1.mem p.pgdir +
    (space s1.mem p'.pgdir + ({p.kstack} + R))) := by
    rw [old, show s1.free + space s.mem p.pgdir + (space s1.mem p'.pgdir + ({p.kstack} + R)) =
      s1.free + space s1.mem p'.pgdir + (space s.mem p.pgdir + ({p.kstack} + R)) by abel]
    exact stacked.image.good good
  refine Spec.mono (freevm_spec lay.toFits shares) ?_
  rintro _ s' ⟨free, frame⟩
  have same : ∀ n ∈ space s1.mem p'.pgdir, s'.mem n = s1.mem n := fun n member =>
    frame n (Multiset.mem_add.mpr (Or.inl member))
  have entries : ∀ b < 2 ^ 20, entryAt s'.mem p'.pgdir b = entryAt s1.mem p'.pgdir b := fun b =>
    entryAt_transfer same
  refine ⟨?_, fun n member => ?_, kstack, size, bound, fun b below => ?_, fun b above within => ?_,
    fun b above within => ?_, holds.congr fun b below => userPage_transfer same (by omega), ?_⟩
  · rw [space_congr fun n member => same n (Multiset.mem_add.mpr (Or.inl member)), free, old,
      ← stacked.image.pages]
    abel
  · rw [frame n (Multiset.mem_add.mpr (Or.inr member)),
      stacked.image.frame n (Multiset.mem_add.mpr (Or.inr member))]
  · rw [whole] at below
    rw [entries b (by omega)]
    by_cases guard : b = pagesOf (imageSize 0 (loads H))
    · obtain ⟨n, here⟩ := stacked.guard
      grind
    · obtain ⟨n, here⟩ := stacked.user b below (by omega)
      exact ⟨n, PTE_W ||| PTE_U, here, (if_neg guard).symm⟩
  · grind [Stacked.rest]
  · rw [entries b within]
    exact stacked.image.kernel b above within
  · obtain ⟨pointers, layout⟩ := args
    exact ⟨pointers, layout.transfer same bound⟩

/-- `exec` replaces the image, or leaves no trace. It waits for ever only if the strings do not fit
below the end of the stack. -/
theorem exec_spec (serves : Serves allowed files I J Q path f)
    (fits : (∀ ip H, IsElf (Q ip) H → argSize argv ≤ stackTop H) ∨ allowed.waits) :
    Spec allowed (exec files L p path argv) (f, s) fun out x => J x.1 ∧
      (out.1 = -1 ∧ NoTrace s x.2 p out.2 R ∨
      out.1 = 0 ∧ ∃ ip H, IsElf (Q ip) H ∧ Replaced L (Q ip) H s x.2 p out.2 R argv) := by
  have nothing : NoTrace s s p p R := ⟨rfl, rfl, fun _ _ => rfl⟩
  have found : Spec allowed (files.namei path) (f, s).1 _ := serves.namei
  refine Spec.bind found.onFirst ?_
  rintro r ⟨f1, s1⟩ ⟨named, same⟩
  dsimp only at named same
  rw [same]
  cases r with
  | none => exact Spec.pure ⟨named.1 rfl, Or.inl ⟨rfl, nothing⟩⟩
  | some ip =>
    have lock : Spec allowed (files.ilock ip) (f1, s).1 _ := named.2 ip rfl
    refine Spec.bind lock.onFirst ?_
    rintro _ ⟨f2, s2⟩ ⟨locked, same⟩
    dsimp only at locked same
    rw [same]
    have read : Spec allowed (files.readi ip 0 ELFHDRSIZE) (f2, s).1 _ :=
      (serves.reads ip).readi f2 locked 0 (by decide) ELFHDRSIZE (by decide)
    refine Spec.bind read.onFirst ?_
    rintro ⟨r, bytes⟩ ⟨f3, s3⟩ ⟨⟨locked3, answer⟩, same⟩
    dsimp only at locked3 answer same ⊢
    rw [same]
    have unlock := serves.unlock ip
    -- The way out with the file locked.
    have fails : ∀ {f' : φ} {d : Nat} {s1 : State}, I ip f' →
        (d = 0 ∧ NoTrace s s1 p p R ∨ d ≠ 0 ∧
        Image L s s1 d (space s.mem p.pgdir + ({p.kstack} + R))) →
        Spec allowed (exec.bad files L p d (some ip)) (f', s1) fun out x => J x.1 ∧
        (out.1 = -1 ∧ NoTrace s x.2 p out.2 R ∨
          out.1 = 0 ∧ ∃ ip H, IsElf (Q ip) H ∧ Replaced L (Q ip) H s x.2 p out.2 R argv) := by
      intro f' d s1 locked made
      refine Spec.mono (bad_spec lay good (fun i here => ?_) nofun made) fun _ _ =>
        And.imp_right Or.inl
      grind
    split
    · exact fails locked3 (Or.inl ⟨rfl, nothing⟩)
    rename_i whole
    rw [Decidable.not_not.mp whole] at answer
    split
    · exact fails locked3 (Or.inl ⟨rfl, nothing⟩)
    rename_i magic
    have setup : Spec allowed (setupkvm L) (f3, s).2 _ := setupkvm_spec lay good
    refine Spec.bind setup.onSecond ?_
    rintro d ⟨f4, s4⟩ ⟨made, still⟩
    dsimp only at made still
    rw [still]
    rcases made with ⟨zero, free, frame⟩ | ⟨new, image, empty⟩
    · rw [if_pos zero]
      exact fails locked3 (Or.inl ⟨rfl, rfl, free, frame⟩)
    rw [if_neg new]
    have loading : Loading L s s4 d _ 0 :=
      ⟨image, by decide, fun b below => absurd below (Nat.not_lt_zero b), fun b _ within =>
        empty b within⟩
    have holds : Holds (Q ip) s4 d 0 [] :=
      ⟨nofun, nofun, fun _ b below => absurd below (Nat.not_lt_zero b)⟩
    refine Spec.bind (loadProgram_spec lay.toFits (serves.reads ip) good _ (uintAt_lt bytes 28)
      locked3 loading holds) ?_
    rintro r ⟨f5, s5⟩ ⟨locked5, loaded⟩
    cases r with
    | none => exact fails locked5 (Or.inr ⟨new, loaded⟩)
    | some sz =>
      obtain ⟨loading, H, headers, rfl, holds⟩ := loaded
      have elf : IsElf (Q ip) H := ⟨bytes, answer, Decidable.not_not.mp magic, headers⟩
      have unlocked : Spec allowed (files.iunlockput ip) (f5, s5).1 _ := unlock f5 locked5
      refine Spec.bind unlocked.onFirst ?_
      rintro _ ⟨f6, s6⟩ ⟨after, same⟩
      dsimp only at after same
      rw [same]
      have stack : Spec allowed (setStack L d argv (imageSize 0 (loads H))) (f6, s5).2 _ :=
        setStack_spec lay good loading (fits.imp_left fun all => all ip H elf)
      refine Spec.bind stack.onSecond ?_
      rintro r ⟨f7, s7⟩ ⟨result, still⟩
      dsimp only at result still
      rw [still]
      cases r with
      | none =>
        exact Spec.mono (bad_spec lay good nofun (fun _ => after) (Or.inr ⟨new, result⟩)) fun _ _ =>
          And.imp_right Or.inl
      | some pair =>
        obtain ⟨sz, esp⟩ := pair
        obtain ⟨size, stacked, moved, args⟩ := result
        have kstack : p.kstack ≠ 0 := by
          refine lay.ne_zero (good.usable _ (Multiset.mem_add.mpr
            (Or.inr (Multiset.mem_add.mpr (Or.inr ?_)))))
          exact Multiset.mem_add.mpr (Or.inl (Multiset.mem_singleton_self _))
        have top := stacked.top_lt
        have holds : Holds (Q ip) s7 d _ _ := holds.congr fun b below => moved.userPage (by omega)
          (by omega)
        dsimp only
        generalize next : ({ p with name := _, pgdir := d, sz := sz, eip := _, esp := esp } :
          Proc) = p'
        have fields : p'.pgdir = d ∧ p'.kstack = p.kstack ∧ p'.sz = sz ∧ p'.esp = esp := by grind
        obtain ⟨rfl, stack, rfl, rfl⟩ := fields
        have switch : Spec allowed (switchuvm p') (f6, s7).2 _ :=
          switchuvm_spec (stack ▸ kstack) new
        refine Spec.bind switch.onSecond ?_
        rintro _ ⟨f8, s8⟩ ⟨same, still⟩
        dsimp only at same still
        rw [same, still]
        have commit : Spec allowed (freevm L p.pgdir) (f6, s7).2 _ :=
          commit_spec lay good stacked holds args stack size
        refine Spec.bind commit.onSecond ?_
        grind [Spec.pure]

end Exec

section Regular

variable {content : List UInt8} {H H' : List Proghdr} {off n : Nat} {bytes : List UInt8}

/-- The reads of a regular file with these contents. -/
def Answers (content : List UInt8) (off n : Nat) (out : Int × List UInt8) : Prop :=
  out = readContent content off n

/-- The path names a regular file. -/
def RegularFile (files : Files φ ι) (path content : List UInt8) (f : φ) : Prop :=
  ∃ ip f1 f2 f3, files.namei path f = .ok (some ip, f1) ∧ files.ilock ip f1 = .ok ((), f2) ∧
    (∀ off < 2 ^ 32, ∀ n < 2 ^ 32, files.readi ip off n f2 = .ok (readContent content off n, f2)) ∧
    files.iunlockput ip f2 = .ok ((), f3)

theorem RegularFile.serves (file : RegularFile files path content f) :
    ∃ I, Serves allowed files I (fun _ => True) (fun _ => Answers content) path f := by
  obtain ⟨ip, f1, f2, f3, named, locked, reads, unlocked⟩ := file
  refine ⟨fun i g => i = ip ∧ g = f2, Spec.mono (Spec.of_eq named) ?_, fun i => ⟨?_⟩, ?_⟩
  · rintro r f' ⟨rfl, rfl⟩
    refine ⟨fun _ => trivial, fun i here => ?_⟩
    refine Spec.mono (Spec.of_eq (Option.some.inj here ▸ locked)) ?_
    grind
  · rintro g ⟨rfl, rfl⟩ off start n size
    refine Spec.mono (Spec.of_eq (reads off start n size)) ?_
    rintro out f' ⟨answer, same⟩
    exact ⟨⟨rfl, same⟩, answer⟩
  · grind [Spec.mono, Spec.of_eq]

theorem RegularFile.exec (file : RegularFile files path content f) (lay : L.Sound)
    (good : Good L (s.free + (space s.mem p.pgdir + ({p.kstack} + R))))
    (fits : ∀ H, IsElf (Answers content) H → argSize argv ≤ stackTop H) :
    ∃ r p' x, Vm.exec files L p path argv (f, s) = .ok ((r, p'), x) ∧
      (r = -1 ∧ NoTrace s x.2 p p' R ∨ r = 0 ∧ ∃ H, IsElf (Answers content) H ∧
        Replaced L (Answers content) H s x.2 p p' R argv) := by
  obtain ⟨I, serves⟩ := file.serves
  have spec : Spec Stops.nothing (Vm.exec files L p path argv) (f, s) _ :=
    exec_spec lay good serves (Or.inl fun _ H elf => fits H elf)
  obtain ⟨out, x, ran, _, result⟩ := spec.total
  exact ⟨out.1, out.2, x, ran, result.imp_right fun ⟨zero, _, replaced⟩ => ⟨zero, replaced⟩⟩

/-- `exec` of a regular file returns, and if it fails it leaves no trace. -/
theorem exec_safe_atomic (lay : L.Sound)
    (good : Good L (s.free + (space s.mem p.pgdir + ({p.kstack} + R))))
    (file : RegularFile files path content f)
    (fits : ∀ H, IsElf (Answers content) H → argSize argv ≤ stackTop H) :
    ∃ r p' x, exec files L p path argv (f, s) = .ok ((r, p'), x) ∧
      (r = 0 ∨ r = -1 ∧ NoTrace s x.2 p p' R) := by
  obtain ⟨r, p', x, ran, result⟩ := file.exec lay good fits
  refine ⟨r, p', x, ran, ?_⟩
  rcases result with failed | ⟨zero, _⟩
  · exact Or.inr failed
  · exact Or.inl zero

section Tiny

/-- A program with a segment at address 0, of four bytes of the file and four that are zero, and one
in the next page. -/
def tinyProgram : List UInt8 :=
  [0x7f, 0x45, 0x4c, 0x46] ++ List.replicate 24 0 ++ [52, 0, 0, 0] ++ List.replicate 12
    0 ++ [2, 0] ++ List.replicate 6 0 ++
    [1, 0, 0, 0, 116, 0, 0, 0, 0, 0, 0, 0, 0, 0, 0, 0, 4, 0, 0, 0, 8, 0, 0, 0] ++
    List.replicate 8 0 ++
    [1, 0, 0, 0, 120, 0, 0, 0, 0, 16, 0, 0, 0, 0, 0, 0, 2, 0, 0, 0, 2, 0, 0, 0] ++
    List.replicate 8 0 ++ [1, 2, 3, 4, 5, 6]

/-- Its program headers. -/
def tinyHeaders : List Proghdr :=
  [Proghdr.ofBytes ((tinyProgram.drop 52).take 32), Proghdr.ofBytes ((tinyProgram.drop 84).take 32)]

theorem tinyProgram_regular : RegularFile (oneFile tinyProgram) [120] tinyProgram () :=
  ⟨(), (), (), (), rfl, rfl, fun _ _ _ _ => rfl, rfl⟩

theorem tinyProgram_elf : IsElf (Answers tinyProgram) tinyHeaders := by
  have header : Answers tinyProgram 0 ELFHDRSIZE (ELFHDRSIZE, tinyProgram.take 52) := by
    unfold Answers
    decide +kernel
  have first : Answers tinyProgram 52 PROGHDRSIZE (PROGHDRSIZE, (tinyProgram.drop 52).take 32) := by
    unfold Answers
    decide +kernel
  have second : Answers tinyProgram 84 PROGHDRSIZE (PROGHDRSIZE, (tinyProgram.drop 84).take 32) :=
    by
    unfold Answers
    decide +kernel
  exact ⟨_, header, by decide, Headers.cons first (Headers.cons second (Headers.nil _))⟩

theorem tinyHeaders_apart : Apart (loads tinyHeaders) := by
  have past : segPast (Proghdr.ofBytes ((tinyProgram.drop 52).take 32)) = 1 := by decide +kernel
  have first : segFirst (Proghdr.ofBytes ((tinyProgram.drop 84).take 32)) = 1 := by decide +kernel
  refine List.Pairwise.filter _ (List.pairwise_pair.mpr fun b here there => ?_)
  have below := here.2
  have above := there.1
  omega

/-- A process without user pages, and eight free pages. -/
def emptySpace : State where
  mem := fun _ _ => 0
  freelist := [1026, 1027, 1028, 1029, 1030, 1031, 1032, 1033]
  asked := 0
  refuse := fun _ => false

def emptyProc : Proc := ⟨1024, 1025, 0, 0, 0, []⟩

theorem emptyProc_good :
    Good bareKernel (emptySpace.free + (space emptySpace.mem emptyProc.pgdir +
      ({emptyProc.kstack} + 0))) := by
  have blank : space emptySpace.mem emptyProc.pgdir = {1024} := by
    rw [space, frames_blank rfl, leaves_empty fun b _ => entryAt_blank rfl b, add_zero]
    rfl
  rw [blank]
  refine ⟨by decide, ?_⟩
  unfold Layout.Usable
  decide

/-- Two arguments. -/
def hello : List CStr :=
  [⟨[104, 105], by decide, by decide⟩, ⟨[97, 98, 99, 100], by decide, by decide⟩]

/-- The program can be run. -/
theorem tinyProgram_runs :
    ∃ p' x, exec (oneFile tinyProgram) bareKernel emptyProc [120] hello ((), emptySpace) =
    .ok ((0, p'), x) := by
  have zero : (exec (oneFile tinyProgram) bareKernel emptyProc [120] hello
      ((), emptySpace)).toOption.map (fun result => result.1.1) = some 0 := by decide +kernel
  obtain ⟨⟨⟨r, p'⟩, x⟩, ran, same⟩ := Option.map_eq_some_iff.mp zero
  exact ⟨p', x, same ▸ Outcome.toOption_eq_some.mp ran⟩

/-- `kalloc` fails at its fourth call. -/
def scarce : State := { emptySpace with refuse := fun asked => asked == 3 }

end Tiny

/-- There is no page table for the page of the first segment, and `exec` leaves no trace. -/
theorem exec_safe_atomic_tiny :
    ∃ p' x, exec (oneFile tinyProgram) bareKernel emptyProc [120] hello ((), scarce) =
    .ok ((-1, p'), x) ∧ NoTrace scarce x.2 emptyProc p' 0 := by
  have fits : ∀ H, IsElf (Answers tinyProgram) H → argSize hello ≤ stackTop H := by
    intro H _
    have size : argSize hello = 12 := rfl
    rw [size, stackTop]
    simp only [PGSIZE]
    omega
  have fails : (exec (oneFile tinyProgram) bareKernel emptyProc [120] hello
      ((), scarce)).toOption.map (fun result => result.1.1) = some (-1) := by decide +kernel
  have good : Good bareKernel
      (scarce.free + (space scarce.mem emptyProc.pgdir + ({emptyProc.kstack} + 0))) :=
      emptyProc_good
  obtain ⟨r, p', x, ran, result⟩ := exec_safe_atomic bareKernel_sound good tinyProgram_regular fits
  rw [ran, Outcome.toOption, Option.map_some, Option.some.injEq] at fails
  rcases result with zero | ⟨rfl, none⟩
  · exact absurd (zero.symm.trans fails) (by decide)
  · exact ⟨p', x, ran, none⟩

/-- A read that gives all it was asked for. -/
theorem readContent_whole (start : off < 2 ^ 32) (size : n < 2 ^ 32)
    (answer : Answers content off n ((n : Int), bytes)) :
    off + n ≤ content.length ∧ off + n < 2 ^ 32 ∧ bytes = (content.drop off).take n := by
  unfold Answers readContent at answer
  split at answer
  · cases answer
  split at answer
  · injection answer with count _
    omega
  · injection answer with _ same
    exact ⟨by omega, by omega, same⟩

theorem Headers.unique {k : Nat} (first : Headers (Answers content) k off H)
    (second : Headers (Answers content) k off H') :
    H = H' := by
  induction first generalizing H' with
  | nil =>
    cases second
    rfl
  | cons read _ ih =>
    cases second with
    | cons read' behind' =>
      have same := read.trans read'.symm
      injection same with _ same
      rw [same, ih behind']

theorem IsElf.unique (first : IsElf (Answers content) H) (second : IsElf (Answers content) H') :
    H = H' := by
  obtain ⟨bytes, read, _, headers⟩ := first
  obtain ⟨bytes', read', _, headers'⟩ := second
  have same := read.trans read'.symm
  injection same with _ same
  subst same
  exact headers.unique headers'

theorem Headers.decoded {Q : Nat → Nat → Int × List UInt8 → Prop} {k : Nat} {ph : Proghdr}
    (headers : Headers Q k off H) (member : ph ∈ H) : ∃ bytes, ph = Proghdr.ofBytes bytes := by
  induction headers with
  | nil => cases member
  | cons _ _ ih =>
    rcases List.mem_cons.mp member with here | behind
    · exact ⟨_, here⟩
    · exact ih behind

/-- What is at the addresses of a segment. -/
structure SegmentAt (mem : Nat → Block) (d : Nat) (content : List UInt8) (ph : Proghdr) : Prop where
  inside : ph.off + ph.filesz ≤ content.length ∨ ph.filesz = 0
  file : ∀ k < ph.filesz, userByte mem d (ph.vaddr + k) = content[ph.off + k]?
  zero : ∀ k, ph.filesz ≤ k → k < ph.memsz → userByte mem d (ph.vaddr + k) = some 0

section Segment

variable {ph : Proghdr} (start : ph.off < 2 ^ 32) (size : ph.filesz < 2 ^ 32)
  (pages : ∀ j, PGSIZE * j < ph.filesz → ∃ bytes,
    Answers content (add32 ph.off (PGSIZE * j)) (chunk ph.filesz j)
    ((chunk ph.filesz j : Int), bytes) ∧
      userPage s.mem d (segFirst ph + j) = some (overwrite (fun _ => 0) 0 bytes))

include start size pages

/-- The offsets in the file do not wrap around, because no read did. -/
theorem segment_offset (j : Nat) (inside : PGSIZE * j < ph.filesz) :
    add32 ph.off (PGSIZE * j) = ph.off + PGSIZE * j := by
  induction j with
  | zero =>
    rw [Nat.mul_zero, Nat.add_zero, add32, Nat.add_zero, Nat.mod_eq_of_lt start]
  | succ j ih =>
    obtain ⟨bytes, answer, _⟩ := pages j (by simp only [PGSIZE] at *; omega)
    have full : chunk ph.filesz j = PGSIZE := if_neg (by simp only [PGSIZE] at *; omega)
    rw [ih (by simp only [PGSIZE] at *; omega), full] at answer
    have below : ph.off + PGSIZE * j < 2 ^ 32 := by
      rw [← ih (by simp only [PGSIZE] at *; omega)]
      exact Nat.mod_lt _ (by decide)
    have reach := (readContent_whole below (by decide) answer).2.1
    simp only [add32, PGSIZE] at *
    omega

/-- The bytes of page `j` of the segment. -/
theorem segment_page (j : Nat) (inside : PGSIZE * j < ph.filesz) :
    ph.off + PGSIZE * j + chunk ph.filesz j ≤ content.length ∧
    userPage s.mem d (segFirst ph + j) =
      some (overwrite (fun _ => 0) 0 ((content.drop (ph.off + PGSIZE * j)).take
        (chunk ph.filesz j))) := by
  obtain ⟨bytes, answer, here⟩ := pages j inside
  have most := chunk_le ph.filesz j
  have offset := segment_offset start size pages j inside
  have below : add32 ph.off (PGSIZE * j) < 2 ^ 32 := Nat.mod_lt _ (by decide)
  rw [offset] at answer below
  obtain ⟨reach, _, same⟩ := readContent_whole below (by omega) answer
  rw [here, same]
  exact ⟨reach, rfl⟩

end Segment

theorem Holds.segmentAt {ph : Proghdr} {D : List Proghdr} (holds : Holds (Answers content) s d sz D)
    (apart : Apart D) (member : ph ∈ D) (start : ph.off < 2 ^ 32) (size : ph.filesz < 2 ^ 32) :
    SegmentAt s.mem d content ph := by
  obtain ⟨aligned, sizes, _⟩ := holds.valid ph member
  have past := segPast_eq aligned
  have position : ph.vaddr = PGSIZE * segFirst ph := by
    simp only [segFirst, PGSIZE] at *
    omega
  have page : ∀ j < pagesOf ph.memsz, SegmentPage (Answers content) s d ph (segFirst ph + j) :=
    fun j below =>
    holds.pages apart ph member _ ⟨Nat.le_add_right _ _, by omega⟩
  have pages : ∀ j, PGSIZE * j < ph.filesz → ∃ bytes,
      Answers content (add32 ph.off (PGSIZE * j)) (chunk ph.filesz j)
      ((chunk ph.filesz j : Int), bytes) ∧
        userPage s.mem d (segFirst ph + j) = some (overwrite (fun _ => 0) 0 bytes) := by
    intro j inside
    have here := page j ((lt_iff_lt_pagesOf _ _).mp (by omega))
    grind [SegmentPage, Nat.add_sub_cancel_left]
  have split : ∀ k, (ph.vaddr + k) / PGSIZE = segFirst ph + k / PGSIZE ∧ (ph.vaddr + k) % PGSIZE =
    k % PGSIZE := by
    simp only [PGSIZE] at *
    omega
  refine ⟨?_, fun k below => ?_, fun k above below => ?_⟩
  · by_cases empty : ph.filesz = 0
    · exact Or.inr empty
    · have last := (segment_page start size pages ((ph.filesz - 1) / PGSIZE)
        (by simp only [PGSIZE] at *; omega)).1
      have rest : chunk ph.filesz ((ph.filesz - 1) / PGSIZE) = ph.filesz - PGSIZE *
        ((ph.filesz - 1) / PGSIZE) := by
        unfold chunk
        grind
      exact Or.inl (by omega)
  · obtain ⟨reach, here⟩ := segment_page start size pages (k / PGSIZE)
      (by simp only [PGSIZE] at *; omega)
    have less : k % PGSIZE < chunk ph.filesz (k / PGSIZE) := by
      unfold chunk
      grind
    have length : ((content.drop (ph.off + PGSIZE * (k / PGSIZE))).take
        (chunk ph.filesz (k / PGSIZE))).length = chunk ph.filesz (k / PGSIZE) := by
      grind
    have sum : ph.off + PGSIZE * (k / PGSIZE) + k % PGSIZE = ph.off + k := by
      rw [Nat.add_assoc, Nat.div_add_mod]
    rw [userByte, (split k).1, (split k).2, here, Option.map_some,
      Fs.overwrite_inside _ _ _ _ (Nat.zero_le _) (by omega), Nat.sub_zero,
      List.getD_eq_getElem?_getD,
      List.getElem?_take_of_lt less, List.getElem?_drop, sum, List.getElem?_eq_getElem (by omega),
      Option.getD_some]
  · have blank : PGSIZE * (k / PGSIZE) < ph.filesz ∨ userPage s.mem d (segFirst ph + k / PGSIZE) =
      some fun _ => 0 := by
      by_cases loaded : PGSIZE * (k / PGSIZE) < ph.filesz
      · exact Or.inl loaded
      · have here := page (k / PGSIZE) ((lt_iff_lt_pagesOf _ _).mp
          (by simp only [PGSIZE] at *; omega))
        grind [SegmentPage, Nat.add_sub_cancel_left]
    rcases blank with loaded | zero
    · obtain ⟨_, here⟩ := segment_page start size pages (k / PGSIZE) loaded
      have most := (chunk_le ph.filesz (k / PGSIZE)).2
      rw [userByte, (split k).1, (split k).2, here, Option.map_some, Fs.overwrite_outside]
      grind
    · rw [userByte, (split k).1, zero, Option.map_some]

/-- If `exec` returns 0, the segments are in memory and the user may use all but the guard page. -/
theorem exec_loads_program {x : φ × State} (lay : L.Sound)
    (good : Good L (s.free + (space s.mem p.pgdir + ({p.kstack} + R))))
    (file : RegularFile files path content f) (elf : IsElf (Answers content) H)
    (apart : Apart (loads H)) (returned : exec files L p path argv (f, s) = .ok ((0, p'), x)) :
    (∀ ph ∈ loads H, SegmentAt x.2.mem p'.pgdir content ph) ∧
      ∃ top, p'.sz = PGSIZE * top ∧ p'.esp / PGSIZE + 1 = top ∧
        ∀ b < top, entryAt x.2.mem p'.pgdir b ≠ none ∧
          (UserOk x.2.mem p'.pgdir b ↔ b + 2 ≠ top) := by
  obtain ⟨I, serves⟩ := file.serves
  have spec : Spec Stops.all (exec files L p path argv) (f, s) _ := exec_spec lay good serves
    (Or.inr trivial)
  rcases (spec.ok returned).2 with ⟨failed, _⟩ | ⟨_, _, H', elf', replaced⟩
  · exact absurd failed (show (0 : Int) ≠ -1 by decide)
  rw [elf'.unique elf] at replaced
  obtain ⟨bytes, _, _, headers⟩ := elf.headers
  have whole := pagesOf_stackTop H
  refine ⟨fun ph member => ?_, pagesOf (imageSize 0 (loads H)) + 2, replaced.size, ?_,
    fun b below => ?_⟩
  · obtain ⟨raw, decoded⟩ := headers.decoded (List.mem_filter.mp member).1
    refine replaced.segments.segmentAt apart member ?_ ?_
    · rw [decoded]
      exact uintAt_lt raw 4
    · rw [decoded]
      exact uintAt_lt raw 16
  · obtain ⟨pointers, layout⟩ := replaced.args
    have inside := layout.inside (p'.esp, 4) (List.mem_append.mpr (Or.inl List.mem_cons_self))
    simp only [PGSIZE] at *
    omega
  · obtain ⟨n, perm, here, kind⟩ := replaced.user b (by omega)
    rw [here, userOk_mapWord (by rw [kind]; split <;> decide) here, kind]
    refine ⟨Option.some_ne_none _, ?_⟩
    by_cases guard : b = pagesOf (imageSize 0 (loads H))
    · rw [if_pos guard]
      exact ⟨fun set => absurd set (by decide), fun other => by omega⟩
    · rw [if_neg guard]
      exact ⟨fun _ => by omega, fun _ => by decide⟩

theorem exec_loads_program_tiny :
    ∃ p' x, exec (oneFile tinyProgram) bareKernel emptyProc [120] hello ((), emptySpace) =
    .ok ((0, p'), x) ∧ (∀ ph ∈ loads tinyHeaders,
      SegmentAt x.2.mem p'.pgdir tinyProgram ph) ∧ ∃ top, p'.sz = PGSIZE * top ∧
        p'.esp / PGSIZE + 1 = top ∧
        ∀ b < top, entryAt x.2.mem p'.pgdir b ≠ none ∧
          (UserOk x.2.mem p'.pgdir b ↔ b + 2 ≠ top) := by
  obtain ⟨p', x, ran⟩ := tinyProgram_runs
  exact ⟨p', x, ran, exec_loads_program bareKernel_sound emptyProc_good tinyProgram_regular
    tinyProgram_elf tinyHeaders_apart ran⟩

end Regular

/-- If `exec` returns 0, `main` finds its arguments on the stack, all in the last page. -/
theorem exec_arguments {x : φ × State} (lay : L.Sound)
    (good : Good L (s.free + (space s.mem p.pgdir + ({p.kstack} + R))))
    (returned : exec files L p path argv (f, s) = .ok ((0, p'), x)) :
    ∃ top pointers, p'.sz = PGSIZE * top ∧ ArgLayout x.2.mem p'.pgdir top p'.esp argv pointers := by
  have spec : Spec Stops.all (exec files L p path argv) (f, s) _ :=
    exec_spec lay good (serves_any files path f) (Or.inr trivial)
  rcases (spec.ok returned).2 with ⟨failed, _⟩ | ⟨_, _, H, _, replaced⟩
  · exact absurd failed (show (0 : Int) ≠ -1 by decide)
  · obtain ⟨pointers, layout⟩ := replaced.args
    exact ⟨_, pointers, replaced.size, layout⟩

theorem exec_arguments_tiny :
    ∃ p' x, exec (oneFile tinyProgram) bareKernel emptyProc [120] hello ((), emptySpace) =
    .ok ((0, p'), x) ∧ ∃ top pointers, p'.sz = PGSIZE * top ∧ ArgLayout x.2.mem p'.pgdir top p'.esp
      hello pointers := by
  obtain ⟨p', x, ran⟩ := tinyProgram_runs
  exact ⟨p', x, ran, exec_arguments bareKernel_sound emptyProc_good ran⟩

end Xv6.Vm
