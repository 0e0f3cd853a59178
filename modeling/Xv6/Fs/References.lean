import Xv6.Fs.Books
import Xv6.Fs.Transaction

/- Every call keeps the accounts of the open files, on every path on which it fails too. With
`Base` this makes the counts of references exact after any run. -/
namespace Xv6.Fs

open Exec hiding panic

section Calls

variable {q : Fin NPROC} {kalloc : Option (Nat × (Fin PIPESIZE → UInt8))}

/-- What holds of the open files between two calls. A process that does not run has none. -/
structure Accounts (s : State) : Prop where
  books : Books s.procs s.ftable s.pipes []
  vacant : ∀ q, (s.procs q).cwd = none → ∀ fd, (s.procs q).ofile fd = none

variable {α : Type} {f : Fin NFILE} {p : Fin NPROC} {s : State}

theorem Accounts.congr (accounts : Accounts s) {s' : State} (same : tables s' = tables s) :
    Accounts s' := by
  simp only [tables, Prod.mk.injEq] at same
  obtain ⟨procs, ftable, _, pipes⟩ := same
  refine ⟨?_, ?_⟩
  · rw [procs, ftable, pipes]
    exact accounts.books
  · rw [procs]
    exact accounts.vacant

theorem Accounts.keep (accounts : Accounts s) {program : Exec State α}
    (keeps : Keeps tables program) :
    Spec Stops.all program s fun _ s' => Accounts s' :=
  (keeps.spec s).mono fun _ _ same => accounts.congr same

theorem putFd_cwd (s : State) (p : Fin NPROC) (fd : Fin NOFILE) (f : Option (Fin NFILE))
    (q : Fin NPROC) :
    ((s.putFd p fd f).procs q).cwd = (s.procs q).cwd := by
  by_cases here : q = p
  · subst here
    rw [State.putFd, putTask_self]
  · change (Function.update s.procs p _ q).cwd = _
    rw [Function.update_of_ne here]

theorem putFd_other (apart : q ≠ p) (fd : Fin NOFILE) (f : Option (Fin NFILE)) :
    (s.putFd p fd f).procs q = s.procs q :=
  Function.update_of_ne apart _ _

/-- A descriptor that was empty is emptied again. -/
theorem putFd_undo (s : State) {fd : Fin NOFILE} (empty : (s.procs p).ofile fd = none) :
    ((s.putFd p fd (some f)).putFd p fd none).procs = s.procs := by
  funext q
  by_cases here : q = p
  · subst here
    rw [State.putFd, putTask_self, State.putFd, putTask_self]
    simp only [Function.update_idem]
    rw [← empty, Function.update_eq_self]
  · rw [putFd_other here, putFd_other here]

/-- A process that runs may change its own descriptors. -/
theorem vacant_putFd (vacant : ∀ q, (s.procs q).cwd = none → ∀ fd, (s.procs q).ofile fd = none)
    (runs : (s.procs p).cwd ≠ none) (fd : Fin NOFILE) (f : Option (Fin NFILE)) (q : Fin NPROC)
    (idle : ((s.putFd p fd f).procs q).cwd = none) (fd' : Fin NOFILE) :
    ((s.putFd p fd f).procs q).ofile fd' = none := by
  rw [putFd_cwd] at idle
  have other : q ≠ p := by
    rintro rfl
    exact runs idle
  rw [putFd_other other]
  exact vacant q idle fd'

theorem argfd_some {fd : Int} {i : Fin NOFILE} (found : argfd p fd s = some (i, f)) :
    (s.procs p).ofile i = some f := by
  rw [argfd] at found
  split at found
  · obtain ⟨g, here, pair⟩ := Option.map_eq_some_iff.mp found
    cases pair
    exact here
  · cases found

theorem dup_accounts (accounts : Accounts s) (runs : (s.procs p).cwd ≠ none) (fd : Int) :
    Spec Stops.all (sysDup p fd) s fun _ s' => Accounts s' := by
  refine Spec.bind_get ?_
  split
  · exact Spec.pure accounts
  rename_i f _
  refine Spec.bind (fdalloc_spec p f) ?_
  intro found s1 post
  cases found with
  | none =>
    rw [post.2]
    exact Spec.pure accounts
  | some new =>
    obtain ⟨empty, rfl⟩ := post
    -- The descriptor is filled before the reference is counted.
    refine Spec.bind (Spec.bind_get ?_ : Spec Stops.all _ _ fun _ s' => Accounts s')
      fun _ s2 post => Spec.pure post
    split
    · exact Spec.panic trivial
    · refine Spec.modify ⟨?_, vacant_putFd accounts.vacant runs new (some f)⟩
      exact (accounts.books.more f).putFd empty

theorem close_accounts (accounts : Accounts s) (runs : (s.procs p).cwd ≠ none) (fd : Int) :
    Spec Stops.all (sysClose p fd) s fun _ s' => Accounts s' := by
  refine Spec.bind_get ?_
  split
  · exact Spec.pure accounts
  rename_i i f found
  refine Spec.bind_modify ?_
  refine Spec.bind (fileclose_books (accounts.books.takeFd (argfd_some found))) ?_
  rintro _ s1 ⟨procs1, books1⟩
  refine Spec.pure ⟨?_, ?_⟩
  · rw [procs1]
    exact books1
  · rw [procs1]
    exact vacant_putFd accounts.vacant runs i none

/-- The bytes in a pipe do not count. -/
theorem Accounts.refill (accounts : Accounts s) {page : Nat} {pipe pipe' : Pipe}
    (here : s.pipes page = some pipe)
    (same : ∀ writable, pipe'.opened writable = pipe.opened writable) :
    Accounts (s.putPipe page (some pipe')) :=
  ⟨⟨accounts.books.refs, accounts.books.idle, accounts.books.ends.refill here same⟩,
    accounts.vacant⟩

theorem advance_accounts (accounts : Accounts s) (f : Fin NFILE) (r : Int) :
    Spec Stops.all (when (0 < r) (advance f r)) s fun _ s' => Accounts s' := by
  refine Spec.when (fun _ => ?_) fun _ => accounts
  exact Spec.modify ⟨accounts.books.touch rfl ⟨Iff.rfl, fun _ => ⟨rfl, rfl, rfl⟩⟩
    (accounts.books.idle f), accounts.vacant⟩

theorem fileread_accounts (accounts : Accounts s) (f : Fin NFILE) (n : Nat) :
    Spec Stops.all (fileread p f n) s fun _ s' => Accounts s' := by
  refine Spec.bind_get ?_
  dsimp only
  split
  · exact Spec.pure accounts
  split
  · refine Spec.bind_get ?_
    split
    · rename_i pipe here
      have same := pipe.opened_readSection false n
      split
      · rename_i after bytes ran
        rw [ran] at same
        exact Spec.bind_modify (Spec.pure (accounts.refill here same))
      · exact Spec.pure accounts
      · exact Spec.wait trivial
    · exact Spec.wait trivial
  · refine Spec.bind (accounts.keep (keeps_ilock _ _)) ?_
    intro _ s1 accounts1
    refine Spec.bind (accounts1.keep (keeps_readi _ _ _)) ?_
    intro result s2 accounts2
    refine Spec.bind (advance_accounts accounts2 f result.1) ?_
    intro _ s3 accounts3
    exact Spec.bind (accounts3.keep (keeps_iunlock _ _)) fun _ _ post => Spec.pure post
  · exact Spec.panic trivial

theorem filewriteLoop_accounts (accounts : Accounts s) (f : Fin NFILE) (fuel : Nat)
    (src : List UInt8) :
    Spec Stops.all (filewriteLoop p f fuel src) s fun _ s' => Accounts s' := by
  induction fuel generalizing s src with
  | zero => exact Spec.pure accounts
  | succ fuel ih =>
    unfold filewriteLoop
    split
    · exact Spec.pure accounts
    refine Spec.bind_get ?_
    refine Spec.bind (accounts.keep (keeps_ilock _ _)) ?_
    intro _ s1 accounts1
    refine Spec.bind (accounts1.keep (keeps_writei _ _ _)) ?_
    intro r s2 accounts2
    refine Spec.bind (advance_accounts accounts2 f r) ?_
    intro _ s3 accounts3
    refine Spec.bind (accounts3.keep (keeps_iunlock _ _)) ?_
    intro _ s4 accounts4
    split
    · exact Spec.pure accounts4
    · split
      · exact Spec.panic trivial
      · exact ih accounts4 _

theorem filewrite_accounts (accounts : Accounts s) (f : Fin NFILE) (src : List UInt8) :
    Spec Stops.all (filewrite p f src) s fun _ s' => Accounts s' := by
  refine Spec.bind_get ?_
  dsimp only
  split
  · exact Spec.pure accounts
  split
  · refine Spec.bind_get ?_
    split
    · rename_i pipe here
      have same := pipe.opened_writeLoop false src
      split
      · rename_i after ran
        rw [ran] at same
        exact Spec.bind_modify (Spec.pure (accounts.refill here same))
      · rename_i after rest ran
        rw [ran] at same
        exact Spec.bind_modify (Spec.pure (accounts.refill here same))
      · exact Spec.wait trivial
    · exact Spec.wait trivial
  · exact Spec.bind (filewriteLoop_accounts accounts f _ src) fun _ _ post => Spec.pure post
  · exact Spec.panic trivial

/-- A task of the same descriptors in the place of process `p`, which runs then. -/
theorem Accounts.putTask (accounts : Accounts s) {task : Task}
    (ofile : task.ofile = (s.procs p).ofile) (runs : task.cwd = none → ∀ fd, task.ofile fd = none) :
    Accounts (s.putTask p task) := by
  have each : ∀ q, ((s.putTask p task).procs q).ofile = (s.procs q).ofile := by
    intro q
    by_cases here : q = p
    · subst here
      rw [putTask_self, ofile]
    · exact congrArg Task.ofile (Function.update_of_ne here _ _)
  refine ⟨⟨fun f => ?_, accounts.books.idle, accounts.books.ends⟩, fun q idle => ?_⟩
  · rw [fds_congr each]
    exact accounts.books.refs f
  · by_cases here : q = p
    · grind [putTask_self]
    · change (Function.update s.procs p task q).cwd = none at idle
      rw [Function.update_of_ne here] at idle
      rw [each]
      exact accounts.vacant q idle

theorem chdir_accounts (accounts : Accounts s) (path : List UInt8) :
    Spec Stops.all (sysChdir p path) s fun _ s' => Accounts s' := by
  refine Spec.bind (accounts.keep (keeps_namei _ _)) ?_
  intro found s1 accounts1
  split
  · exact Spec.pure accounts1
  refine Spec.bind (accounts1.keep (keeps_ilock _ _)) ?_
  intro _ s2 accounts2
  refine Spec.bind_get ?_
  split
  · exact Spec.bind (accounts2.keep (keeps_iunlockput _ _)) fun _ _ post => Spec.pure post
  refine Spec.bind (accounts2.keep (keeps_iunlock _ _)) ?_
  intro _ s3 accounts3
  split
  · refine Spec.bind (accounts3.keep (keeps_iput _ _)) ?_
    intro _ s4 accounts4
    exact Spec.bind_modify (Spec.pure (accounts4.putTask rfl nofun))
  · exact Spec.wait trivial

/-- The descriptors of the list are empty then, and no other process is touched. -/
theorem closeFiles_accounts (accounts : Accounts s) (runs : (s.procs p).cwd ≠ none)
    (fds : List (Fin NOFILE)) :
    Spec Stops.all (exit.closeFiles p fds) s fun _ s' => Accounts s' ∧
      (∀ fd, (s.procs p).ofile fd = none → (s'.procs p).ofile fd = none) ∧
      ∀ fd ∈ fds, (s'.procs p).ofile fd = none := by
  induction fds generalizing s with
  | nil => exact Spec.pure ⟨accounts, fun _ empty => empty, fun _ member =>
      (List.not_mem_nil member).elim⟩
  | cons fd rest ih =>
    refine Spec.bind_get ?_
    split
    · rename_i f here
      refine Spec.bind (fileclose_books (accounts.books.takeFd here)) ?_
      rintro _ s1 ⟨procs1, books1⟩
      refine Spec.bind_modify ?_
      have same : (s1.putFd p fd none).procs = (s.putFd p fd none).procs := by
        simp only [State.putFd, State.putTask, procs1]
      have accounts1 : Accounts (s1.putFd p fd none) := by
        refine ⟨?_, ?_⟩
        · rw [same]
          exact books1
        · rw [same]
          exact vacant_putFd accounts.vacant runs fd none
      have runs1 : ((s1.putFd p fd none).procs p).cwd ≠ none := by
        rw [putFd_cwd, procs1]
        exact runs
      have emptied : ∀ fd', fd' = fd ∨ (s.procs p).ofile fd' = none →
          ((s1.putFd p fd none).procs p).ofile fd' = none := by
        intro fd' case
        rw [State.putFd, putTask_self, procs1]
        grind
      refine Spec.mono (ih accounts1 runs1) ?_
      rintro _ s2 ⟨accounts2, kept, closed⟩
      refine ⟨accounts2, fun fd' empty => kept fd' (emptied fd' (Or.inr empty)),
        fun fd' member => ?_⟩
      rcases List.mem_cons.mp member with rfl | later
      · exact kept fd' (emptied fd' (Or.inl rfl))
      · exact closed fd' later
    · rename_i empty
      refine Spec.mono (ih accounts runs) ?_
      rintro _ s2 ⟨accounts2, kept, closed⟩
      refine ⟨accounts2, kept, fun fd' member => ?_⟩
      rcases List.mem_cons.mp member with rfl | later
      · exact kept fd' empty
      · exact closed fd' later

theorem exit_accounts (accounts : Accounts s) (runs : (s.procs p).cwd ≠ none) :
    Spec Stops.all (exit p) s fun _ s' => Accounts s' := by
  unfold exit
  split
  · exact Spec.panic trivial
  refine Spec.bind (closeFiles_accounts accounts runs (List.finRange NOFILE)) ?_
  rintro _ s1 ⟨accounts1, _, closed⟩
  refine Spec.bind_get ?_
  split
  · refine Spec.bind ((keeps_iput p _).spec s1) ?_
    intro _ s2 same
    refine Spec.bind_modify (Spec.pure ((accounts1.congr same).putTask rfl fun _ fd => ?_))
    rw [show s2.procs = s1.procs from congrArg Prod.fst same]
    exact closed fd (List.mem_finRange fd)
  · exact Spec.wait trivial

/-- The child gets a reference to each file of the parent. -/
theorem dupFiles_books (fds : List (Fin NOFILE)) (nodup : fds.Nodup)
    (books : Books s.procs s.ftable s.pipes []) (empty : ∀ fd ∈ fds, (s.procs q).ofile fd = none) :
    Spec Stops.all (fork.dupFiles p q fds) s fun _ s' => Books s'.procs s'.ftable s'.pipes [] ∧
      ∀ r, r ≠ q → s'.procs r = s.procs r := by
  induction fds generalizing s with
  | nil => exact Spec.pure ⟨books, fun _ _ => rfl⟩
  | cons fd rest ih =>
    rw [List.nodup_cons] at nodup
    refine Spec.bind_get ?_
    split
    · rename_i f here
      refine Spec.bind (filedup_books books f) ?_
      rintro _ s1 ⟨procs1, books1⟩
      rw [← procs1] at books1 empty
      refine Spec.bind_modify ?_
      change Spec Stops.all _ (s1.putFd q fd (some f)) _
      refine Spec.mono (ih nodup.2 (books1.putFd (empty fd List.mem_cons_self)) fun fd' member =>
        ?_) ?_
      · have later : fd' ≠ fd := by
          rintro rfl
          exact nodup.1 member
        rw [State.putFd, putTask_self]
        grind
      · rintro _ s2 ⟨books2, others⟩
        refine ⟨books2, fun r other => ?_⟩
        rw [others r other, putFd_other other, procs1]
    · exact ih nodup.2 books fun fd' member => empty fd' (List.mem_cons_of_mem _ member)

theorem fork_accounts (accounts : Accounts s)
    (free : (s.procs q).cwd = none) : Spec Stops.all (fork p q) s fun _ s' => Accounts s' := by
  refine Spec.bind_get (Spec.bind (dupFiles_books (List.finRange NOFILE) (List.nodup_finRange _)
    accounts.books fun fd _ => accounts.vacant q free fd) ?_)
  rintro _ s1 ⟨books1, others⟩
  split
  · rename_i cwd _
    refine Spec.bind ((keeps_idup cwd).spec s1) ?_
    intro _ s2 same
    simp only [tables, Prod.mk.injEq] at same
    obtain ⟨procs2, ftable2, _, pipes2⟩ := same
    rw [← procs2, ← ftable2, ← pipes2] at books1
    rw [setTask_eq]
    refine Spec.bind_modify (Spec.pure ⟨⟨fun f => ?_, books1.idle, books1.ends⟩, fun r idle => ?_⟩)
    · refine (books1.refs f).trans (congrArg (· + _) (fds_congr (fun r => ?_) f))
      by_cases here : r = q
      · subst here
        rw [putTask_self]
      · exact congrArg Task.ofile (Function.update_of_ne here _ _).symm
    · have other : r ≠ q := by grind [putTask_self]
      have here : ∀ task, (s2.putTask q task).procs r = s.procs r := by
        intro task
        change Function.update s2.procs q task r = _
        grind
      rw [here] at idle ⊢
      exact accounts.vacant r idle
  · exact Spec.wait trivial

theorem open_accounts (accounts : Accounts s) (runs : (s.procs p).cwd ≠ none) (path : List UInt8)
    (omode : Int) :
    Spec Stops.all (sysOpen p path omode) s fun _ s' => Accounts s' := by
  refine Spec.bind ((keeps_openInode p path omode).spec s) ?_
  intro found s1 same
  have accounts1 := accounts.congr same
  have runs1 : (s1.procs p).cwd ≠ none := by
    rw [show s1.procs = s.procs from congrArg Prod.fst same]
    exact runs
  split
  · exact Spec.pure accounts1
  rename_i ip
  refine Spec.bind (filealloc_books accounts1.books) ?_
  rintro found s2 ⟨procs2, _, post⟩
  cases found with
  | none =>
    rw [post]
    exact Spec.bind (accounts1.keep (keeps_iunlockput _ _)) fun _ _ post => Spec.pure post
  | some f =>
    obtain ⟨books2, _, type2, ref2, _⟩ := post
    rw [← procs2] at runs1
    have vacant2 : ∀ q, (s2.procs q).cwd = none → ∀ fd, (s2.procs q).ofile fd = none := by
      rw [procs2]
      exact accounts1.vacant
    refine Spec.bind (fdalloc_spec p f) ?_
    intro found s3 post
    cases found with
    | none =>
      rw [post.2]
      refine Spec.bind (fileclose_books books2) ?_
      rintro _ s4 ⟨procs4, books4⟩
      rw [← procs2, ← procs4] at books4
      rw [← procs4] at vacant2
      have accounts4 : Accounts s4 := ⟨books4, vacant2⟩
      exact Spec.bind (accounts4.keep (keeps_iunlockput _ _)) fun _ _ post => Spec.pure post
    | some fd =>
      obtain ⟨empty, rfl⟩ := post
      rw [← procs2] at books2
      have accounts3 : Accounts (s2.putFd p fd (some f)) :=
        ⟨books2.putFd empty, vacant_putFd vacant2 runs1 fd (some f)⟩
      refine Spec.bind ((keeps_iunlock p ip).spec _) ?_
      intro _ s4 same
      have accounts4 := accounts3.congr same
      have file : s4.ftable f = s2.ftable f := congrFun (congrArg (fun tables => tables.2.1) same) f
      refine Spec.bind_modify (Spec.pure ⟨accounts4.books.touch rfl ⟨?_, nofun⟩ fun zero => ?_,
        accounts4.vacant⟩)
      · grind
      · rw [file, ref2] at zero
        cases zero

/-- The ends of a new pipe, which the call holds. -/
theorem pipealloc_books (books : Books s.procs s.ftable s.pipes [])
    (unused : ∀ page, kalloc = some page → s.pipes page.1 = none) :
    Spec Stops.all (pipealloc p kalloc) s fun found s' => s'.procs = s.procs ∧ match found with
      | some (rf, wf) => Books s.procs s'.ftable s'.pipes [wf, rf]
      | none => Books s.procs s'.ftable s'.pipes [] := by
  refine Spec.bind (filealloc_books books) ?_
  rintro found s1 ⟨procs1, pipes1, post⟩
  cases found with
  | none =>
    rw [post]
    exact Spec.pure ⟨rfl, books⟩
  | some f0 =>
    obtain ⟨books1, _, type0, ref0, _⟩ := post
    refine Spec.bind (filealloc_books books1) ?_
    rintro found s2 ⟨procs2, pipes2, post⟩
    cases found with
    | none =>
      rw [post]
      refine Spec.bind (fileclose_books books1) ?_
      grind [Spec.pure]
    | some f1 =>
      obtain ⟨books2, free1, type1, ref1, others⟩ := post
      have apart : f1 ≠ f0 := by grind
      rw [← others f0 apart.symm] at type0 ref0
      cases kalloc with
      | none =>
        refine Spec.bind (fileclose_books (books2.perm (List.Perm.swap f0 f1 []))) ?_
        rintro _ s3 ⟨procs3, books3⟩
        refine Spec.bind (fileclose_books books3) ?_
        grind [Spec.pure]
      | some page =>
        have dead : s2.pipes page.1 = none := by grind
        refine Spec.bind_modify ?_
        refine Spec.bind_modify ?_
        refine Spec.bind_modify (Spec.pure ⟨procs2.trans procs1, books2.make dead apart type0 type1
          ?_ ?_ ?_ ?_⟩)
        · exact ⟨rfl, rfl, rfl, rfl, rfl⟩
        · refine ⟨?_, rfl, rfl, rfl, rfl⟩
          change (Function.update s2.ftable f0 _ f1).ref = _
          rw [Function.update_of_ne apart]
        · rw [ref0]
          exact one_ne_zero
        · rw [ref1]
          exact one_ne_zero

theorem pipe_accounts (accounts : Accounts s) (runs : (s.procs p).cwd ≠ none)
    (unused : ∀ page, kalloc = some page → s.pipes page.1 = none) :
    Spec Stops.all (sysPipe p kalloc) s fun _ s' => Accounts s' := by
  refine Spec.bind (pipealloc_books accounts.books unused) ?_
  rintro found s1 ⟨procs1, post⟩
  rw [← procs1] at runs post
  have vacant1 : ∀ q, (s1.procs q).cwd = none → ∀ fd, (s1.procs q).ofile fd = none := by
    rw [procs1]
    exact accounts.vacant
  cases found with
  | none => exact Spec.pure ⟨post, vacant1⟩
  | some ends =>
    obtain ⟨rf, wf⟩ := ends
    -- Both ends are closed again, with the processes as they were.
    have undo : ∀ {s2 : State}, s2.procs = s1.procs → s2.ftable = s1.ftable → s2.pipes = s1.pipes →
        Spec Stops.all (do fileclose p rf; fileclose p wf; return (-1 : Int)) s2 fun _ s' =>
      Accounts s' := by
      intro s2 procs2 ftable2 pipes2
      rw [← ftable2, ← pipes2] at post
      refine Spec.bind (fileclose_books (post.perm (List.Perm.swap rf wf []))) ?_
      rintro _ s3 ⟨procs3, books3⟩
      refine Spec.bind (fileclose_books books3) ?_
      rintro _ s4 ⟨procs4, books4⟩
      rw [← procs2, ← procs3, ← procs4] at books4 vacant1
      exact Spec.pure ⟨books4, vacant1⟩
    refine Spec.bind (fdalloc_spec p rf) ?_
    intro found s2 post2
    cases found with
    | none =>
      rw [post2.2]
      exact undo rfl rfl rfl
    | some fd0 =>
      obtain ⟨empty, rfl⟩ := post2
      have books2 := (post.perm (List.Perm.swap rf wf [])).putFd empty
      have runs2 : ((s1.putFd p fd0 (some rf)).procs p).cwd ≠ none := by
        rw [putFd_cwd]
        exact runs
      refine Spec.bind (fdalloc_spec p wf) ?_
      intro found s3 post3
      cases found with
      | none =>
        rw [post3.2, setTask_eq]
        refine Spec.bind_modify (undo ?_ rfl rfl)
        exact putFd_undo s1 empty
      | some fd1 =>
        obtain ⟨empty1, rfl⟩ := post3
        exact Spec.pure ⟨books2.putFd empty1,
          vacant_putFd (vacant_putFd vacant1 runs fd0 (some rf)) runs2 fd1 (some wf)⟩

theorem Accounts.ended (accounts : Accounts s) {program : Exec State α}
    (spec : Spec Stops.all program s fun _ s' => Ended s s.outside p s') :
    Spec Stops.all program s fun _ s' => Accounts s' :=
  spec.mono fun _ _ ended => accounts.congr ended.tables

/-- Every call keeps the accounts. -/
theorem call_accounts (base : Base s) (accounts : Accounts s) (runs : (s.procs p).cwd ≠ none)
    (call : Call) (possible : call.possible s = true) :
    Spec Stops.all (call.perform p) s fun _ s' => Accounts s' := by
  cases call with
  | sysOpen path omode => exact open_accounts accounts runs path omode
  | sysMkdir path => exact accounts.ended (makes_ended base path Itype.noConfusion 0 0)
  | sysMknod path major minor => exact accounts.ended (makes_ended base path Itype.noConfusion
      major minor)
  | sysLink old new => exact accounts.ended (sysLink_ended base old new)
  | sysUnlink path => exact accounts.ended (sysUnlink_ended base path)
  | sysChdir path => exact chdir_accounts accounts path
  | sysClose fd => exact close_accounts accounts runs fd
  | sysDup fd => exact dup_accounts accounts runs fd
  | sysPipe kalloc =>
    refine pipe_accounts accounts runs ?_
    rintro page rfl
    exact Option.isNone_iff_eq_none.mp possible
  | sysRead fd n =>
    refine Spec.bind_get ?_
    grind [Spec.pure, fileread_accounts]
  | sysWrite fd src =>
    refine Spec.bind_get ?_
    grind [Spec.pure, filewrite_accounts]
  | sysFstat fd =>
    refine Spec.bind_get ?_
    grind [Spec.pure, Accounts.keep, keeps_filestat]
  | sysChmod path mode => exact accounts.ended (sysChmod_ended base path mode)
  | sysChown path uid => exact accounts.ended (sysChown_ended base path uid)
  | exec path setupkvm enough rest => exact accounts.ended (exec_ended base path setupkvm
      enough rest)
  | fork child =>
    cases child with
    | some q => exact fork_accounts accounts (Option.isNone_iff_eq_none.mp possible)
    | none => exact Spec.pure accounts
  | exit => exact exit_accounts accounts runs
  | setCreds uid gid =>
    exact Spec.bind_modify (Spec.pure (accounts.putTask rfl (accounts.vacant p)))

end Calls

section Exact

/-- Every count of references is exact: that of an open file, of a slot of the inode cache,
and the two flags of a pipe. -/
structure CountsExact (s : State) : Prop where
  files : ∀ f, (s.ftable f).ref =
    (Finset.univ.filter fun d : Fin NPROC × Fin NOFILE => (s.procs d.1).ofile d.2 = some f).card
  inodes : ∀ i, (s.icache i).ref =
    (Finset.univ.filter fun f =>
      (s.ftable f).type = .inode ∧ 0 < (s.ftable f).ref ∧ (s.ftable f).ip = i).card +
    (Finset.univ.filter fun p => (s.procs p).cwd = some i).card
  readopen : ∀ page pipe, s.pipes page = some pipe → (pipe.readopen = true ↔
    ∃ f, (s.ftable f).type = .pipe ∧ (s.ftable f).pipe = page ∧ (s.ftable f).readable = true ∧
      0 < (s.ftable f).ref)
  writeopen : ∀ page pipe, s.pipes page = some pipe → (pipe.writeopen = true ↔
    ∃ f, (s.ftable f).type = .pipe ∧ (s.ftable f).pipe = page ∧ (s.ftable f).writable = true ∧
      0 < (s.ftable f).ref)

variable {s : State}

theorem fds_card (procs : Fin NPROC → Task) (f : Fin NFILE) :
    fds procs f = (Finset.univ.filter fun d : Fin NPROC × Fin NOFILE => (procs d.1).ofile d.2 =
      some f).card := by
  rw [Finset.card_filter, ← Finset.univ_product_univ, Finset.sum_product]
  unfold fds
  rfl

theorem cwds_card (procs : Fin NPROC → Task) (i : Fin NINODE) :
    cwds procs i = (Finset.univ.filter fun p => (procs p).cwd = some i).card := by
  rw [Finset.card_filter]
  unfold cwds
  rfl

theorem opens_card (ftable : Fin NFILE → File) (i : Fin NINODE) :
    opens ftable i = (Finset.univ.filter fun f => (ftable f).type = .inode ∧
      (ftable f).ip = i).card := by
  rw [Finset.card_filter]
  unfold opens
  rfl

/-- The file of an end is referenced. -/
theorem Accounts.isEnd_iff (accounts : Accounts s) (page : Nat) (writable : Bool) (f : Fin NFILE) :
    IsEnd s.ftable page writable f ↔ (s.ftable f).type = .pipe ∧ (s.ftable f).pipe = page ∧
      (s.ftable f).writable = writable ∧ 0 < (s.ftable f).ref := by
  constructor
  · intro isEnd
    refine ⟨isEnd.type, isEnd.page, isEnd.writable, Nat.pos_of_ne_zero fun zero => ?_⟩
    have none := accounts.books.idle f zero
    rw [isEnd.type] at none
    cases none
  · rintro ⟨type, rfl, rfl, _⟩
    exact accounts.books.ends.sides f type

theorem countsExact (base : Base s) (accounts : Accounts s) : CountsExact s := by
  refine ⟨fun f => ?_, fun i => ?_, fun page pipe live => ?_, fun page pipe live => ?_⟩
  · rw [accounts.books.refs f, List.count_nil, Nat.add_zero, fds_card]
  · have counted := (base.mid 0).counted i
    rw [List.map_nil, List.count_nil, Nat.add_zero, outside_refs] at counted
    rw [counted, Nat.add_comm, cwds_card, opens_card]
    congr 2
    ext f
    simp only [Finset.mem_filter, Finset.mem_univ, true_and]
    refine ⟨fun refers => ⟨refers.1, ?_, refers.2⟩, fun refers => ⟨refers.1, refers.2.2⟩⟩
    exact Nat.pos_of_ne_zero (base.ref refers.1)
  · refine (accounts.books.ends.opened page pipe live false).trans (exists_congr fun f => ?_)
    rw [accounts.isEnd_iff]
    refine and_congr_right fun type => and_congr_right fun _ => and_congr_left fun _ => ?_
    rw [(accounts.books.ends.sides f type).readable]
    cases (s.ftable f).writable <;> decide
  · refine (accounts.books.ends.opened page pipe live true).trans (exists_congr fun f => ?_)
    rw [accounts.isEnd_iff]

variable {im : Mkfs.Image} {files : List Mkfs.Source} {devsw : Int → Option Device}

/-- When the first process starts it has no open files. -/
theorem started_accounts (start : started im devsw = .ok s) : Accounts s := by
  obtain ⟨⟨_, s'⟩, ran, rfl⟩ := Outcome.map_eq_ok.mp start
  have none : Accounts (im.boot devsw) := by
    have empty : ∀ f, fds (im.boot devsw).procs f = 0 := by
      intro f
      unfold fds
      exact Finset.sum_eq_zero fun p _ => Finset.sum_eq_zero fun fd _ =>
        if_neg (Option.some_ne_none f).symm
    refine ⟨⟨fun f => ?_, fun _ _ => rfl, ⟨nofun, nofun, fun _ _ _ _ isEnd _ => ?_, nofun⟩⟩,
      fun _ _ _ => rfl⟩
    · rw [empty, List.count_nil]
      rfl
    · cases isEnd.type
  have spec : Spec Stops.all userinit (im.boot devsw) fun _ s => Accounts s := by
    refine Spec.bind ((keeps_namei 0 [47]).spec _) ?_
    intro cwd s1 same
    refine Spec.modify ((none.congr same).putTask rfl fun _ fd => ?_)
    rw [show s1.procs = (im.boot devsw).procs from congrArg Prod.fst same]
    rfl
  exact spec.ok ran

/-- After any calls of any processes on an image of mkfs, whether they succeed or fail,
every count of references is exact. -/
theorem references_exact (made : Mkfs.mkfs files = some im) (few : files.length < NINODES - 1)
    (room : im.freeblock ≤ FSSIZE) {calls : List (Fin NPROC × Call)}
    (reached : runSystem im devsw calls = some s) : CountsExact s := by
  obtain ⟨base, accounts⟩ := run_system_all (Mkfs.mkfs_made made few room)
    (fun s start _ => started_accounts start)
    (fun s p call r s' base accounts taken => by
      obtain ⟨⟨runs, possible⟩, ran⟩ := callStep_eq_ok.mp taken
      exact (call_accounts base accounts runs call possible).ok ran) reached
  exact countsExact base accounts

/-- Two processes share a file and a pipe; the second closes the read end and exits. -/
def shareAndExit : List (Fin NPROC × Call) :=
  [(0, .sysOpen [47, 97] 0x202), (0, .sysPipe (some (7, fun _ => 0))), (0, .fork (some 1)),
    (0, .sysClose 1), (1, .sysDup 0), (1, .sysClose 1), (1, .sysClose 9), (1, .exit)]

theorem references_exact_shareAndExit : ∃ im s, Mkfs.mkfs [] = some im ∧
    runSystem im (fun _ => none) shareAndExit = some s ∧ (s.ftable 0).ref = 1 ∧
      (s.icache 1).ref = 1 ∧
    (s.pipes 7).map (fun pipe => (pipe.readopen, pipe.writeopen)) = some (false, true) ∧
      CountsExact s := by
  obtain ⟨im, made, room, s, ran, file, inode, pipe⟩ : Mkfs.Yields [] fun im =>
      ∃ s ∈ runSystem im (fun _ => none) shareAndExit, (s.ftable 0).ref = 1 ∧ (s.icache 1).ref = 1 ∧
        (s.pipes 7).map (fun pipe => (pipe.readopen, pipe.writeopen)) = some (false, true) := by
    decide +kernel
  exact ⟨im, s, made, ran, file, inode, pipe, references_exact made (by decide) room ran⟩

end Exact

end Xv6.Fs
