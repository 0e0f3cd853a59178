import Xv6.Fs.Files

/- The references to open files: each is a descriptor of a process, or one that the call
holds at the moment. The ends of a pipe that are open are those that a file is for. The
inode layer does not touch any of this. -/
namespace Xv6.Fs

open Exec hiding panic

section Count

/-- The descriptors of a process for file `f`. -/
def Task.points (f : Fin NFILE) (task : Task) : Nat := ∑ fd, if task.ofile fd = some f then 1 else 0

@[irreducible] def fds (procs : Fin NPROC → Task) (f : Fin NFILE) : Nat := ∑ p, (procs p).points f

theorem fds_update (procs : Fin NPROC → Task) (p : Fin NPROC) (task : Task) (f : Fin NFILE) :
    fds (Function.update procs p task) f + (procs p).points f = fds procs f + task.points f := by
  unfold fds
  exact sum_table_update procs (Task.points f) p task

theorem fds_congr {procs procs' : Fin NPROC → Task} (same : ∀ p, (procs p).ofile = (procs' p).ofile)
    (f : Fin NFILE) : fds procs f = fds procs' f := by
  unfold fds
  exact Finset.sum_congr rfl fun p _ => by rw [Task.points, Task.points, same p]

/-- Descriptor `fd` of process `p` is for another file now. -/
theorem fds_putFd (s : State) (p : Fin NPROC) (fd : Fin NOFILE) (new : Option (Fin NFILE))
    (f : Fin NFILE) :
    fds (s.putFd p fd new).procs f + (if (s.procs p).ofile fd = some f then 1 else 0) =
      fds s.procs f + if new = some f then 1 else 0 := by
  have table :=
    fds_update s.procs p { s.procs p with ofile := Function.update (s.procs p).ofile fd new } f
  have slots := sum_table_update (s.procs p).ofile (fun slot => if slot = some f then 1 else 0)
    fd new
  grind [Task.points, State.putFd, State.putTask]

end Count

section Ends

variable {f : Fin NFILE} {pipe : Pipe}

/-- File `f` is the end of the pipe in the page, for writing or for reading. -/
structure IsEnd (ftable : Fin NFILE → File) (page : Nat) (writable : Bool) (f : Fin NFILE) :
    Prop where
  type : (ftable f).type = .pipe
  page : (ftable f).pipe = page
  readable : (ftable f).readable = !writable
  writable : (ftable f).writable = writable

structure Ends (ftable : Fin NFILE → File) (pipes : Nat → Option Pipe) : Prop where
  sides : ∀ f, (ftable f).type = .pipe → IsEnd ftable (ftable f).pipe (ftable f).writable f
  live : ∀ f, (ftable f).type = .pipe → (pipes (ftable f).pipe).isSome = true
  one : ∀ page writable f g, IsEnd ftable page writable f → IsEnd ftable page writable g → f = g
  opened : ∀ page pipe, pipes page = some pipe → ∀ writable,
    pipe.opened writable = true ↔ ∃ f, IsEnd ftable page writable f

variable {ftable ftable' : Fin NFILE → File} {pipes : Nat → Option Pipe}

/-- The two files are the same to the pipes. -/
structure File.SameEnd (file file' : File) : Prop where
  type : file.type = .pipe ↔ file'.type = .pipe
  fields : file.type = .pipe → file.pipe = file'.pipe ∧ file.writable = file'.writable ∧
    file.readable = file'.readable

theorem File.SameEnd.refl (file : File) : file.SameEnd file := ⟨Iff.rfl, fun _ => ⟨rfl, rfl, rfl⟩⟩

theorem isEnd_congr (same : (ftable' f).SameEnd (ftable f)) (page : Nat) (writable : Bool) :
    IsEnd ftable' page writable f ↔ IsEnd ftable page writable f := by
  constructor
  · rintro ⟨type, rfl, readable, rfl⟩
    obtain ⟨pipe, write, read⟩ := same.fields type
    exact ⟨same.type.mp type, pipe.symm, by rw [← read, readable], write.symm⟩
  · rintro ⟨type, rfl, readable, rfl⟩
    obtain ⟨pipe, write, read⟩ := same.fields (same.type.mpr type)
    exact ⟨same.type.mpr type, pipe, by rw [read, readable], write⟩

theorem Ends.congr (ends : Ends ftable pipes) (same : ∀ f, (ftable' f).SameEnd (ftable f)) :
    Ends ftable' pipes := by
  refine ⟨fun f type => ?_, fun f type => ?_, fun page writable f g first second => ?_,
    fun page pipe here writable => ?_⟩
  · obtain ⟨pipe, write, _⟩ := (same f).fields type
    rw [isEnd_congr (same f), pipe, write]
    exact ends.sides f ((same f).type.mp type)
  · rw [((same f).fields type).1]
    exact ends.live f ((same f).type.mp type)
  · rw [isEnd_congr (same _)] at first second
    exact ends.one page writable f g first second
  · rw [ends.opened page pipe here writable]
    exact exists_congr fun f => (isEnd_congr (same f) page writable).symm

/-- The bytes in a pipe do not matter. -/
theorem Ends.refill (ends : Ends ftable pipes) {page : Nat} {pipe' : Pipe}
    (here : pipes page = some pipe)
    (same : ∀ writable, pipe'.opened writable = pipe.opened writable) :
    Ends ftable (Function.update pipes page (some pipe')) := by
  refine ⟨ends.sides, fun f type => ?_, ends.one, fun other found there writable => ?_⟩
  · rw [Function.update_apply]
    split
    · rfl
    · exact ends.live f type
  · rw [Function.update_apply] at there
    split at there
    · rename_i equal
      cases there
      rw [same, equal]
      exact ends.opened page pipe here writable
    · exact ends.opened other found there writable

theorem isEnd_update_self {file : File} (type : file.type = .pipe) (page : Nat) (writable : Bool) :
    IsEnd (Function.update ftable f file) page writable f ↔
      file.pipe = page ∧ file.writable = writable ∧ file.readable = !writable := by
  constructor
  · intro isEnd
    have page := isEnd.page
    have writable := isEnd.writable
    have readable := isEnd.readable
    grind
  · rintro ⟨page, writable, readable⟩
    refine ⟨?_, ?_, ?_, ?_⟩ <;> rw [Function.update_self] <;> assumption

theorem isEnd_update_of_ne {g : Fin NFILE} (file : File) (apart : g ≠ f) (page : Nat)
    (writable : Bool) :
    IsEnd (Function.update ftable f file) page writable g ↔ IsEnd ftable page writable g := by
  refine isEnd_congr ?_ page writable
  rw [Function.update_of_ne apart]
  exact File.SameEnd.refl _

/-- The last reference to the end of a pipe is gone; `pipeclose` closes the end. -/
theorem Ends.close (ends : Ends ftable pipes) (type : (ftable f).type = .pipe)
    (here : pipes (ftable f).pipe = some pipe) : Ends (Function.update ftable f (ftable f).closed)
      (Function.update pipes (ftable f).pipe
        (if (pipe.close (ftable f).writable).readopen = false ∧
          (pipe.close (ftable f).writable).writeopen = false
          then none else some (pipe.close (ftable f).writable))) := by
  have closed : (Function.update ftable f (ftable f).closed f).type ≠ .pipe := by
    rw [Function.update_self]
    exact FileType.noConfusion
  have apart : ∀ {g page writable}, IsEnd (Function.update ftable f (ftable f).closed) page
      writable g → g ≠ f ∧ IsEnd ftable page writable g := by
    intro g page writable isEnd
    have other : g ≠ f := by
      rintro rfl
      exact closed isEnd.type
    exact ⟨other, (isEnd_update_of_ne _ other page writable).mp isEnd⟩
  have self := ends.sides f type
  -- What is open of the pipe now is what another file is for.
  have still : ∀ writable, (pipe.close (ftable f).writable).opened writable = true ↔
      ∃ g, IsEnd (Function.update ftable f (ftable f).closed) (ftable f).pipe writable g := by
    intro writable
    rw [Pipe.opened_close, Bool.and_eq_true, ends.opened _ pipe here writable, bne_iff_ne]
    constructor
    · rintro ⟨⟨g, isEnd⟩, differ⟩
      have other : g ≠ f := by
        rintro rfl
        exact differ isEnd.writable.symm
      exact ⟨g, (isEnd_update_of_ne _ other _ writable).mpr isEnd⟩
    · rintro ⟨g, isEnd⟩
      obtain ⟨other, before⟩ := apart isEnd
      refine ⟨⟨g, before⟩, ?_⟩
      grind [one]
  refine ⟨fun g typed => ?_, fun g typed => ?_, fun page writable g h first second => ?_,
    fun page found there writable => ?_⟩
  · have other : g ≠ f := by
      rintro rfl
      exact closed typed
    grind [isEnd_update_of_ne, Function.update_of_ne, sides]
  · have other : g ≠ f := by
      rintro rfl
      exact closed typed
    rw [Function.update_of_ne other] at typed ⊢
    rw [Function.update_apply]
    split
    · rename_i same
      have open_ := (still (ftable g).writable).mpr
        ⟨g, (isEnd_update_of_ne _ other _ _).mpr (same ▸ ends.sides g typed)⟩
      split
      · grind [Pipe.opened]
      · rfl
    · exact ends.live g typed
  · exact ends.one page writable g h (apart first).2 (apart second).2
  · rw [Function.update_apply] at there
    split at there
    · grind
    · rename_i differ
      rw [ends.opened page found there writable]
      constructor
      · rintro ⟨g, isEnd⟩
        have other : g ≠ f := by
          rintro rfl
          exact differ isEnd.page.symm
        exact ⟨g, (isEnd_update_of_ne _ other _ _).mpr isEnd⟩
      · grind

/-- `pipealloc` puts a pipe in a page, with two files for its ends. -/
theorem Ends.make (ends : Ends ftable pipes) {page : Nat} {rf wf : Fin NFILE} {read write : File}
    (dead : pipes page = none) (apart : wf ≠ rf) (rfree : (ftable rf).type ≠ .pipe)
    (wfree : (ftable wf).type ≠ .pipe) (isPipe : ∀ writable, pipe.opened writable = true)
    (reads : read.type = .pipe ∧ read.pipe = page ∧ read.readable = true ∧ read.writable = false)
    (writes : write.type = .pipe ∧ write.pipe = page ∧ write.readable = false ∧
      write.writable = true) :
    Ends (Function.update (Function.update ftable rf read) wf write)
      (Function.update pipes page (some pipe)) := by
  obtain ⟨rtype, rpage, rread, rwrite⟩ := reads
  obtain ⟨wtype, wpage, wread, wwrite⟩ := writes
  have here : ∀ side, IsEnd (Function.update (Function.update ftable rf read) wf write) page side
      (if side then wf else rf) := by
    intro side
    cases side with
    | true => exact (isEnd_update_self wtype _ _).mpr ⟨wpage, wwrite, wread⟩
    | false =>
      exact (isEnd_update_of_ne _ apart.symm _ _).mpr ((isEnd_update_self rtype _ _).mpr
        ⟨rpage, rwrite, rread⟩)
  -- An end is one of the two new files, or was one before, of another page.
  have inv : ∀ {g other side}, IsEnd (Function.update (Function.update ftable rf read) wf write)
    other side g →
      other = page ∧ g = (if side then wf else rf) ∨ other ≠ page ∧ g ≠ rf ∧ g ≠ wf ∧
      IsEnd ftable other side g := by
    intro g other side isEnd
    by_cases first : g = wf
    · subst first
      obtain ⟨rfl, rfl, _⟩ := (isEnd_update_self wtype _ _).mp isEnd
      exact Or.inl ⟨wpage, by rw [wwrite]; rfl⟩
    · rw [isEnd_update_of_ne _ first] at isEnd
      by_cases second : g = rf
      · subst second
        obtain ⟨rfl, rfl, _⟩ := (isEnd_update_self rtype _ _).mp isEnd
        exact Or.inl ⟨rpage, by rw [rwrite]; rfl⟩
      · rw [isEnd_update_of_ne _ second] at isEnd
        refine Or.inr ⟨?_, second, first, isEnd⟩
        rintro rfl
        have live := ends.live g isEnd.type
        rw [isEnd.page, dead] at live
        cases live
  have kept : ∀ {g other side}, IsEnd ftable other side g → other ≠ page ∧
      IsEnd (Function.update (Function.update ftable rf read) wf write) other side g := by
    intro g other side isEnd
    have first : g ≠ wf := by
      rintro rfl
      exact wfree isEnd.type
    have second : g ≠ rf := by
      rintro rfl
      exact rfree isEnd.type
    refine ⟨?_, (isEnd_update_of_ne _ first _ _).mpr ((isEnd_update_of_ne _ second _ _).mpr isEnd)⟩
    rintro rfl
    have live := ends.live g isEnd.type
    rw [isEnd.page, dead] at live
    cases live
  have sides : ∀ g, (Function.update (Function.update ftable rf read) wf write g).type = .pipe →
      IsEnd (Function.update (Function.update ftable rf read) wf write)
        (Function.update (Function.update ftable rf read) wf write g).pipe
        (Function.update (Function.update ftable rf read) wf write g).writable g := by
    intro g type
    by_cases first : g = wf
    · grind
    · rw [isEnd_update_of_ne _ first, Function.update_of_ne first]
      grind [Function.update_of_ne, isEnd_update_self, Function.update_self,
        isEnd_update_of_ne, sides]
  refine ⟨sides, fun g type => ?_, fun other side g h first second => ?_,
    fun other found there side => ?_⟩
  · rcases inv (sides g type) with ⟨same, _⟩ | ⟨differ, _, _, old⟩
    · rw [same, Function.update_self]
      rfl
    · rw [Function.update_of_ne differ]
      have live := ends.live g old.type
      rwa [old.page] at live
  · rcases inv first with ⟨same, rfl⟩ | ⟨differ, _, _, old⟩
    · rcases inv second with ⟨_, rfl⟩ | ⟨differ, _⟩
      · rfl
      · exact (differ same).elim
    · rcases inv second with ⟨same, _⟩ | ⟨_, _, _, old'⟩
      · exact (differ same).elim
      · exact ends.one other side g h old old'
  · by_cases same : other = page
    · subst same
      rw [Function.update_self] at there
      cases there
      exact iff_of_true (isPipe side) ⟨_, here side⟩
    · rw [Function.update_of_ne same] at there
      rw [ends.opened other found there side]
      constructor
      · grind
      · rintro ⟨g, isEnd⟩
        rcases inv isEnd with ⟨equal, _⟩ | ⟨_, _, _, old⟩
        · exact (same equal).elim
        · exact ⟨g, old⟩

end Ends

section Books

variable {file : File} {fd : Fin NOFILE}

/-- The references of the table are the descriptors of these processes, and those that the
call holds. -/
structure Books (procs : Fin NPROC → Task) (ftable : Fin NFILE → File) (pipes : Nat → Option Pipe)
    (held : List (Fin NFILE)) : Prop where
  refs : ∀ f, (ftable f).ref = fds procs f + held.count f
  idle : ∀ f, (ftable f).ref = 0 → (ftable f).type = .none
  ends : Ends ftable pipes

variable {procs : Fin NPROC → Task} {ftable : Fin NFILE → File} {pipes : Nat → Option Pipe}
  {held : List (Fin NFILE)} {f : Fin NFILE} {p : Fin NPROC} {s : State}

theorem Books.perm (books : Books procs ftable pipes held) {held' : List (Fin NFILE)}
    (perm : held.Perm held') :
    Books procs ftable pipes held' := by
  refine ⟨fun f => ?_, books.idle, books.ends⟩
  rw [books.refs f, perm.count_eq]

/-- A file changes, and its references stay as they are. -/
theorem Books.touch (books : Books procs ftable pipes held) (ref : file.ref = (ftable f).ref)
    (same : file.SameEnd (ftable f)) (idle : file.ref = 0 → file.type = .none) :
    Books procs (Function.update ftable f file) pipes held := by
  refine ⟨fun g => ?_, fun g => ?_, books.ends.congr fun g => ?_⟩ <;> by_cases here : g = f
  · grind [Function.update_self, refs]
  · rw [Function.update_of_ne here]
    exact books.refs g
  · grind
  · rw [Function.update_of_ne here]
    exact books.idle g
  · grind
  · rw [Function.update_of_ne here]
    exact File.SameEnd.refl _

/-- A file has one reference more, which the call holds. -/
theorem Books.more (books : Books procs ftable pipes held) (f : Fin NFILE) :
    Books procs (Function.update ftable f { ftable f with ref := (ftable f).ref + 1 }) pipes
      (f :: held) := by
  refine ⟨fun g => ?_, fun g => ?_, books.ends.congr fun g => ?_⟩ <;> by_cases here : g = f
  · grind [Function.update_self, List.count_cons_self, refs]
  · rw [Function.update_of_ne here, List.count_cons_of_ne (Ne.symm here)]
    exact books.refs g
  · grind
  · rw [Function.update_of_ne here]
    exact books.idle g
  · subst here
    rw [Function.update_self]
    exact ⟨Iff.rfl, fun _ => ⟨rfl, rfl, rfl⟩⟩
  · rw [Function.update_of_ne here]
    exact File.SameEnd.refl _

/-- A file that was referenced by the call has one reference less. -/
theorem Books.less (books : Books procs ftable pipes (f :: held)) {pipes' : Nat → Option Pipe}
    (ref : file.ref = (ftable f).ref - 1) (idle : file.ref = 0 → file.type = .none)
    (ends : Ends (Function.update ftable f file) pipes') :
    Books procs (Function.update ftable f file) pipes' held := by
  refine ⟨fun g => ?_, fun g => ?_, ends⟩ <;> by_cases here : g = f
  · subst here
    rw [Function.update_self, ref, books.refs g, List.count_cons_self]
    rfl
  · rw [Function.update_of_ne here, books.refs g, List.count_cons_of_ne (Ne.symm here)]
  · grind
  · rw [Function.update_of_ne here]
    exact books.idle g

/-- Two files without a type become the ends of a new pipe. -/
theorem Books.make (books : Books procs ftable pipes held) {page : Nat}
    {data : Fin PIPESIZE → UInt8} {rf wf : Fin NFILE} {read write : File} (dead : pipes page = none)
    (apart : wf ≠ rf) (rfree : (ftable rf).type = .none) (wfree : (ftable wf).type = .none)
    (reads : read.ref = (ftable rf).ref ∧ read.type = .pipe ∧ read.pipe = page ∧
      read.readable = true ∧ read.writable = false)
    (writes : write.ref = (ftable wf).ref ∧ write.type = .pipe ∧ write.pipe = page ∧
      write.readable = false ∧ write.writable = true)
    (rused : (ftable rf).ref ≠ 0) (wused : (ftable wf).ref ≠ 0) :
    Books procs (Function.update (Function.update ftable rf read) wf write)
      (Function.update pipes page (some (Pipe.alloc data))) held := by
  have ref : ∀ g, (Function.update (Function.update ftable rf read) wf write g).ref =
    (ftable g).ref := by
    intro g
    grind
  refine ⟨fun g => ?_, fun g zero => ?_, books.ends.make dead apart ?_ ?_ ?_ reads.2 writes.2⟩
  · rw [ref]
    exact books.refs g
  · rw [ref] at zero
    have first : g ≠ wf := by
      rintro rfl
      exact wused zero
    have second : g ≠ rf := by
      rintro rfl
      exact rused zero
    rw [Function.update_of_ne first, Function.update_of_ne second]
    exact books.idle g zero
  · rw [rfree]
    exact FileType.noConfusion
  · rw [wfree]
    exact FileType.noConfusion
  · intro writable
    cases writable <;> rfl

/-- The call puts a file that it holds into an empty descriptor. -/
theorem Books.putFd (books : Books s.procs ftable pipes (f :: held))
    (empty : (s.procs p).ofile fd = none) :
    Books (s.putFd p fd (some f)).procs ftable pipes held := by
  refine ⟨fun g => ?_, books.idle, books.ends⟩
  have moved := fds_putFd s p fd (some f) g
  have before := books.refs g
  rw [empty, if_neg (Option.some_ne_none g).symm] at moved
  grind

/-- The call takes a file from its descriptor. -/
theorem Books.takeFd (books : Books s.procs ftable pipes held)
    (here : (s.procs p).ofile fd = some f) :
    Books (s.putFd p fd none).procs ftable pipes (f :: held) := by
  refine ⟨fun g => ?_, books.idle, books.ends⟩
  have moved := fds_putFd s p fd none g
  have before := books.refs g
  rw [here, if_neg (Option.some_ne_none g).symm] at moved
  grind

theorem filealloc_books (books : Books procs s.ftable s.pipes held) :
    Spec Stops.all filealloc s fun found s' => s'.procs = s.procs ∧ s'.pipes = s.pipes ∧
      match found with
      | some f => Books procs s'.ftable s'.pipes (f :: held) ∧ (s.ftable f).ref = 0 ∧
          (s'.ftable f).type = .none ∧
          (s'.ftable f).ref = 1 ∧ ∀ g, g ≠ f → s'.ftable g = s.ftable g
      | none => s' = s := by
  refine Spec.mono filealloc_spec ?_
  intro found s' post
  cases found with
  | none =>
    rw [post.2]
    exact ⟨rfl, rfl, rfl⟩
  | some f =>
    obtain ⟨unused, rfl⟩ := post
    have more := books.more f
    rw [unused] at more
    refine ⟨rfl, rfl, more, unused, ?_, ?_, fun g apart => Function.update_of_ne apart _ _⟩
    · rw [putFile_self]
      exact books.idle f unused
    · rw [putFile_self]

theorem filedup_books (books : Books procs s.ftable s.pipes held) (f : Fin NFILE) :
    Spec Stops.all (filedup f) s fun _ s' => s'.procs = s.procs ∧ Books procs s'.ftable s'.pipes
      (f :: held) := by
  refine Spec.bind_get ?_
  split
  · exact Spec.panic trivial
  · exact Spec.modify ⟨rfl, books.more f⟩

/-- `fileclose` gives a reference back, and closes the end of a pipe with the last one. -/
theorem fileclose_books (books : Books procs s.ftable s.pipes (f :: held)) :
    Spec Stops.all (fileclose p f) s fun _ s' => s'.procs = s.procs ∧
      Books procs s'.ftable s'.pipes held := by
  refine Spec.bind_get ?_
  dsimp only
  split
  · exact Spec.panic trivial
  split
  · refine Spec.modify ⟨rfl, books.less rfl (fun zero => ?_) (books.ends.congr fun g => ?_)⟩
    · grind
    · by_cases here : g = f
      · subst here
        rw [Function.update_self]
        exact ⟨Iff.rfl, fun _ => ⟨rfl, rfl, rfl⟩⟩
      · rw [Function.update_of_ne here]
        exact File.SameEnd.refl _
  · refine Spec.bind_modify ?_
    have zero : (s.ftable f).closed.ref = (s.ftable f).ref - 1 := by
      change 0 = _
      omega
    -- A file that is no pipe leaves the ends alone.
    have plain : (s.ftable f).type ≠ .pipe →
        Books procs (Function.update s.ftable f (s.ftable f).closed) s.pipes held := by
      intro other
      refine books.less zero (fun _ => rfl) (books.ends.congr fun g => ?_)
      by_cases here : g = f
      · subst here
        rw [Function.update_self]
        exact ⟨iff_of_false FileType.noConfusion other, fun closed => FileType.noConfusion closed⟩
      · rw [Function.update_of_ne here]
        exact File.SameEnd.refl _
    split
    · rename_i type
      obtain ⟨pipe, live⟩ := Option.isSome_iff_exists.mp (books.ends.live f type)
      refine Spec.bind_get ?_
      dsimp only
      rw [live]
      exact Spec.modify ⟨rfl, books.less zero (fun _ => rfl) (books.ends.close type live)⟩
    · rename_i type
      refine Spec.mono ((keeps_iput p _).spec _) ?_
      intro _ s' same
      simp only [tables, Prod.mk.injEq] at same
      obtain ⟨procs', ftable', _, pipes'⟩ := same
      rw [procs', ftable', pipes']
      refine ⟨rfl, plain ?_⟩
      rw [type]
      exact FileType.noConfusion
    · rename_i type
      refine Spec.pure ⟨rfl, plain ?_⟩
      rw [type]
      exact FileType.noConfusion

end Books

end Xv6.Fs
