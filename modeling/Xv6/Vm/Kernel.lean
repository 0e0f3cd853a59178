import Xv6.Fs.Paths
import Xv6.Vm.Commit

/- `exec` over the file system of the kernel: in a tree with a coherent name cache, a path that
leads to a file gives it the contents of that file. -/
namespace Xv6.Vm

open Exec hiding panic
open Fs (Base Matching Tree Sees components contentOf)

/-- The calls that `exec` makes for process `q`. -/
def kernelFiles (q : Fin NPROC) : Files Fs.State (Fin NINODE) where
  namei := Fs.namei q
  ilock := Fs.ilock q
  readi := Fs.readi
  iunlockput := Fs.iunlockput q

variable {f : Fs.State} {q : Fin NPROC} {i : Fin NINODE} {X off n : Nat} {path : List UInt8}

theorem contentOf_take (blocks : Nat → Fs.Block) (din : Fs.Dinode) {off n size : Nat}
    (inside : off + n ≤ size) :
    ((contentOf blocks din 0 size).drop off).take n = contentOf blocks din off n := by
  have length : ∀ off n, (contentOf blocks din off n).length = n := by simp [contentOf]
  rw [Fs.contentOf_split blocks din (show off ≤ size by omega), List.drop_left' (length 0 off),
    Nat.zero_add, Fs.contentOf_split blocks din (show n ≤ size - off by omega),
    List.take_left' (length off n)]

/-- A file that is locked is read as `exec` expects it. -/
theorem readi_regular (sane : Fs.Sane Fs.clean f) (sees : Sees f i X)
    (plain : f.world.type X = .file) (start : off < 2 ^ 32) (size : n < 2 ^ 32) :
    Fs.readi i off n f = .ok (readContent (f.world.data X) off n, f) := by
  have type : (f.dinodes X).type = .file := plain
  have content : f.world.data X = contentOf f.blocks (f.dinodes X) 0 (f.dinodes X).size :=
    if_neg (by rw [type]; decide)
  have length : (f.world.data X).length = (f.dinodes X).size := by simp [content, contentOf]
  have other : (f.icache i).din.type ≠ .dev := by
    rw [sees.din, type]
    decide
  unfold readContent
  rw [length]
  split
  · rename_i beyond
    have refused : Spec Stops.nothing (Fs.readi i off n) f fun out f' => out = (-1, []) ∧ f' = f :=
      by
      refine Spec.bind_get ?_
      dsimp only
      rw [if_neg other, sees.din, if_pos beyond]
      exact Spec.pure ⟨rfl, rfl⟩
    obtain ⟨out, f', ran, rfl, rfl⟩ := refused.total
    exact ran
  · rename_i inside
    have spec : Spec Stops.nothing (Fs.readi i off n) f _ :=
      Fs.readi_clamped sane sees.used sees.valid rfl off n
    obtain ⟨out, f', ran, rfl, read⟩ := spec.total
    have count : (if (f'.dinodes X).size < off + n then (f'.dinodes X).size - off else n) =
        min n ((f'.dinodes X).size - off) := by
      split <;> omega
    rw [sees.din] at read
    dsimp only
    rw [ran, read (by rw [type]; decide) (by omega) (by omega), count, content,
      contentOf_take _ _ (by omega)]
    rfl

/-- `exec` of process `q` finds a regular file. -/
theorem kernelFiles_regular (base : Base f) (matching : Matching f.world) (tree : Tree f.world)
    (running : (f.procs q).cwd ≠ none) (roomy : f.outside.Roomy Stops.nothing 2)
    (there : f.world.resolve (f.outside.start q path) (components path) = some X)
    (plain : f.world.type X = .file) : RegularFile (kernelFiles q) path (f.world.data X) f := by
  obtain ⟨found, f1, named, ip, rfl, mid1, same⟩ :=
    (Fs.namei_found roomy base matching tree running there).total
  obtain ⟨cache, world1⟩ := same
  have plain1 : f1.world.type X = .file := by
    rw [world1]
    exact plain
  have locks : Spec Stops.nothing (Fs.ilock q ip) f1 _ :=
    Fs.ilock_step mid1 List.mem_cons_self Fs.none_locked fun free => by
      rw [plain1] at free
      cases free
  obtain ⟨_, f2, locked, mid2, world2, apart, _⟩ := locks.total
  have sees : Sees f2 ip X := mid2.sees List.mem_cons_self List.mem_cons_self
  have unlocks : Spec Stops.nothing (Fs.iunlockput q ip) f2 _ := Fs.iunlockput_step mid2 apart
  obtain ⟨_, f3, unlocked, _⟩ := unlocks.total
  refine ⟨ip, f1, f2, f3, named, locked, fun off start n size => ?_, unlocked⟩
  have read := readi_regular mid2.sane sees (by rw [world2]; exact plain1) start size
  rw [world2, world1] at read
  exact read

/-- With the memory map of the kernel, `exec` of a file of its file system returns; it then runs
the program in that file, or it has failed and left no trace. -/
theorem exec_kernelFiles {data kernelEnd : Nat} {s : State} {p : Proc} {R : Multiset Nat}
    {argv : List CStr} (aligned : data % PGSIZE = 0) (low : KERNLINK < data)
    (high : data < KERNBASE + PHYSTOP) (loaded : KERNBASE < kernelEnd)
    (good : Good (layout data kernelEnd) (s.free + (space s.mem p.pgdir + ({p.kstack} + R))))
    (base : Base f) (matching : Matching f.world) (tree : Tree f.world)
    (running : (f.procs q).cwd ≠ none) (roomy : f.outside.Roomy Stops.nothing 2)
    (there : f.world.resolve (f.outside.start q path) (components path) = some X)
    (plain : f.world.type X = .file)
    (fits : ∀ H, IsElf (Answers (f.world.data X)) H → argSize argv ≤ stackTop H) :
    ∃ r p' x, exec (kernelFiles q) (layout data kernelEnd) p path argv (f, s) = .ok ((r, p'), x) ∧
      (r = -1 ∧ NoTrace s x.2 p p' R ∨ r = 0 ∧ ∃ H, IsElf (Answers (f.world.data X)) H ∧
        Replaced (layout data kernelEnd) (Answers (f.world.data X)) H s x.2 p p' R argv) :=
  (kernelFiles_regular base matching tree running roomy there plain).exec
    (layout_sound aligned low high loaded) good fits

end Xv6.Vm
