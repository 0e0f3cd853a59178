import Xv6.Fs.Loader

/- The inode and directory layers do not touch the processes, the open files, the device
switch and the pipes. -/
namespace Xv6.Fs

open Exec hiding panic

/-- What only the calls themselves change. -/
def tables (s : State) :
    (Fin NPROC → Task) × (Fin NFILE → File) × (Int → Option Device) × (Nat → Option Pipe) :=
  (s.procs, s.ftable, s.devsw, s.pipes)

section Cache

variable {γ : Type} {view : State → γ}

/-- The inode cache does not show in the view. -/
structure Uncached (view : State → γ) : Prop where
  same : ∀ s icache, view { s with icache := icache } = view s

theorem Uncached.setInode (uncached : Uncached view) (i : Fin NINODE) (change : Inode → Inode) :
    Keeps view (setInode i change) :=
  Keeps.modify fun s => uncached.same s _

theorem Uncached.iget (uncached : Uncached view) (dev inum : Nat) : Keeps view (iget dev inum) := by
  refine Keeps.get.bind fun s => ?_
  grind [setInode, Keeps.bind, Keeps.pure, Keeps.panic]

theorem Uncached.idup (uncached : Uncached view) (i : Fin NINODE) : Keeps view (idup i) :=
  (uncached.setInode _ _).bind fun _ => Keeps.pure _

theorem Uncached.acquiresleep (uncached : Uncached view) (p : Fin NPROC) (i : Fin NINODE) :
    Keeps view (acquiresleep p i) := by
  refine Keeps.get.bind fun s => ?_
  grind [setInode, Keeps.wait]

theorem Uncached.ilock (uncached : Uncached view) (p : Fin NPROC) (i : Fin NINODE) :
    Keeps view (ilock p i) := by
  refine Keeps.get.bind fun s => ?_
  split
  · exact Keeps.panic _
  · refine (uncached.acquiresleep _ _).bind fun _ => Keeps.when ?_
    exact (uncached.setInode _ _).bind fun _ => Keeps.when (Keeps.panic _)

theorem Uncached.iunlock (uncached : Uncached view) (p : Fin NPROC) (i : Fin NINODE) :
    Keeps view (iunlock p i) := by
  refine Keeps.get.bind fun s => ?_
  split
  · exact Keeps.panic _
  · exact uncached.setInode _ _

end Cache

section Inodes

theorem tables_uncached : Uncached tables := ⟨fun _ _ => rfl⟩

theorem keeps_setInode (i : Fin NINODE) (change : Inode → Inode) :
    Keeps tables (setInode i change) :=
  tables_uncached.setInode i change

theorem keeps_setDin (i : Fin NINODE) (change : Dinode → Dinode) : Keeps tables (setDin i change) :=
  keeps_setInode i _

theorem keeps_balloc : Keeps tables balloc := by
  refine Keeps.get.bind fun s => ?_
  split
  · exact Keeps.bind_modify (fun _ => rfl) <| Keeps.pure _
  · exact Keeps.panic _

theorem keeps_bfree (b : Nat) : Keeps tables (bfree b) := by
  refine Keeps.get.bind fun s => ?_
  split
  · exact Keeps.panic _
  · exact Keeps.modify fun _ => rfl

theorem keeps_iupdate (i : Fin NINODE) : Keeps tables (iupdate i) := Keeps.modify fun _ => rfl

theorem keeps_iget (dev inum : Nat) : Keeps tables (iget dev inum) := tables_uncached.iget dev inum

theorem keeps_ialloc (p : Fin NPROC) (type : Itype) : Keeps tables (ialloc p type) := by
  refine Keeps.get.bind fun s => ?_
  split
  · exact Keeps.bind_modify (fun _ => rfl) <| keeps_iget _ _
  · exact Keeps.panic _

theorem keeps_idup (i : Fin NINODE) : Keeps tables (idup i) := tables_uncached.idup i

theorem keeps_acquiresleep (p : Fin NPROC) (i : Fin NINODE) : Keeps tables (acquiresleep p i) :=
  tables_uncached.acquiresleep p i

theorem keeps_ilock (p : Fin NPROC) (i : Fin NINODE) :
    Keeps tables (ilock p i) := tables_uncached.ilock p i

theorem keeps_iunlock (p : Fin NPROC) (i : Fin NINODE) :
    Keeps tables (iunlock p i) := tables_uncached.iunlock p i

theorem keeps_freeDirect (i : Fin NINODE) (list : List Nat) : Keeps tables (freeDirect i list) := by
  induction list with
  | nil => exact Keeps.pure _
  | cons n rest ih =>
    refine Keeps.get.bind fun s => Keeps.bind (Keeps.when ?_) fun _ => ih
    exact (keeps_bfree _).bind fun _ => keeps_setDin _ _

theorem keeps_freeIndirect (a : Block) (list : List Nat) : Keeps tables (freeIndirect a list) := by
  induction list with
  | nil => exact Keeps.pure _
  | cons j rest ih =>
    exact (Keeps.when (keeps_bfree _)).bind fun _ => ih

theorem keeps_itrunc (i : Fin NINODE) : Keeps tables (itrunc i) := by
  refine (keeps_freeDirect _ _).bind fun _ => Keeps.get.bind fun s => Keeps.bind (Keeps.when ?_)
    fun _ => ?_
  · exact (keeps_freeIndirect _ _).bind fun _ => (keeps_bfree _).bind fun _ => keeps_setDin _ _
  · exact (keeps_setDin _ _).bind fun _ => keeps_iupdate _

theorem keeps_iput (p : Fin NPROC) (i : Fin NINODE) : Keeps tables (iput p i) := by
  refine (keeps_acquiresleep _ _).bind fun _ => Keeps.get.bind fun s => Keeps.bind (Keeps.when ?_)
    fun _ => ?_
  · exact (keeps_itrunc _).bind fun _ => (keeps_setDin _ _).bind fun _ =>
      (keeps_iupdate _).bind fun _ => keeps_setInode _ _
  · exact (keeps_setInode _ _).bind fun _ => keeps_setInode _ _

theorem keeps_iunlockput (p : Fin NPROC) (i : Fin NINODE) : Keeps tables (iunlockput p i) :=
  (keeps_iunlock p i).bind fun _ => keeps_iput p i

theorem keeps_bmap (i : Fin NINODE) (bn : Nat) : Keeps tables (bmap i bn) := by
  have indirect : ∀ addr k, Keeps tables (bmap.indirect addr k) := by
    intro addr k
    refine Keeps.get.bind fun s => ?_
    split
    · exact keeps_balloc.bind fun _ => Keeps.bind_modify (fun _ => rfl) <| Keeps.pure _
    · exact Keeps.pure _
  refine Keeps.get.bind fun s => ?_
  split
  · grind [keeps_balloc, Keeps.bind, keeps_setDin, Keeps.pure]
  · grind [keeps_balloc, Keeps.bind, keeps_setDin, Keeps.panic]

theorem keeps_readi (i : Fin NINODE) (off n : Nat) : Keeps tables (readi i off n) := by
  have loop : ∀ fuel off n, Keeps tables (readiLoop i fuel off n) := by
    intro fuel
    induction fuel with
    | zero => exact fun _ _ => Keeps.pure _
    | succ fuel ih =>
      grind [readiLoop, Keeps.pure, keeps_bmap, Keeps.bind, Keeps.get]
  refine Keeps.get.bind fun s => ?_
  dsimp only
  split
  · grind [Keeps.pure]
  · grind [Keeps.pure, Keeps.bind]

theorem keeps_writei (i : Fin NINODE) (src : List UInt8) (off : Nat) :
    Keeps tables (writei i src off) := by
  have loop : ∀ fuel off src, Keeps tables (writeiLoop i fuel off src) := by
    intro fuel
    induction fuel with
    | zero => exact fun _ _ => Keeps.pure _
    | succ fuel ih =>
      intro off src
      unfold writeiLoop
      split
      · exact Keeps.pure _
      · exact (keeps_bmap _ _).bind fun _ => Keeps.bind_modify (fun _ => rfl) <| ih _ _
  refine Keeps.get.bind fun s => ?_
  dsimp only
  split
  · grind [Keeps.pure]
  · split
    · exact Keeps.pure _
    · split
      · exact Keeps.pure _
      · refine (loop _ _ _).bind fun _ => Keeps.bind (Keeps.when ?_) fun _ => Keeps.pure _
        exact (keeps_setDin _ _).bind fun _ => keeps_iupdate _

end Inodes

section Names

theorem keeps_readDirent (message : String) (i : Fin NINODE) (off : Nat) :
    Keeps tables (readDirent message i off) := by
  refine (keeps_readi _ _ _).bind fun _ => ?_
  grind [Keeps.panic, Keeps.pure]

theorem keeps_dirlookup (i : Fin NINODE) (name : List UInt8) : Keeps tables (dirlookup i name) := by
  have loop : ∀ offs, Keeps tables (dirlookup.loop i name offs) := by
    intro offs
    induction offs with
    | nil => exact Keeps.pure _
    | cons off rest ih =>
      refine (keeps_readDirent _ _ _).bind fun de => ?_
      split
      · exact ih
      · split
        · exact Keeps.bind_modify (fun _ => rfl) <| Keeps.get.bind fun s =>
            (keeps_iget _ _).bind fun _ => Keeps.pure _
        · exact ih
  refine Keeps.get.bind fun s => ?_
  grind [Keeps.panic, keeps_iget, Keeps.bind, Keeps.pure]

theorem keeps_dirlink (p : Fin NPROC) (i : Fin NINODE) (name : List UInt8) (inum : Nat) :
    Keeps tables (dirlink p i name inum) := by
  have empty : ∀ offs, Keeps tables (dirlink.emptySlot i offs) := by
    intro offs
    induction offs with
    | nil => exact Keeps.get.bind fun s => Keeps.pure _
    | cons off rest ih =>
      refine (keeps_readDirent _ _ _).bind fun de => ?_
      grind [Keeps.pure]
  refine (keeps_dirlookup _ _).bind fun found => ?_
  split
  · exact (keeps_iput _ _).bind fun _ => Keeps.pure _
  · refine Keeps.get.bind fun s => (empty _).bind fun off => (keeps_writei _ _ _).bind fun n => ?_
    split
    · exact Keeps.panic _
    · exact Keeps.bind_modify (fun _ => rfl) <| Keeps.pure _

theorem keeps_namexLoop (p : Fin NPROC) (parent : Bool) (ip : Fin NINODE)
    (names : List (List UInt8)) :
    Keeps tables (namexLoop p parent ip names) := by
  induction names generalizing ip with
  | nil =>
    grind [namexLoop, keeps_iput, Keeps.bind, Keeps.pure]
  | cons name rest ih =>
    refine (keeps_ilock _ _).bind fun _ => Keeps.get.bind fun s => ?_
    split
    · exact (keeps_iunlockput _ _).bind fun _ => Keeps.pure _
    · split
      · exact (keeps_iunlock _ _).bind fun _ => Keeps.pure _
      · refine (keeps_dirlookup _ _).bind fun found => ?_
        grind [keeps_iunlockput, Keeps.bind, Keeps.pure]

theorem keeps_namex (p : Fin NPROC) (path : List UInt8) (parent : Bool) :
    Keeps tables (namex p path parent) := by
  unfold namex
  split
  · exact (keeps_iget _ _).bind fun _ => keeps_namexLoop _ _ _ _
  · refine Keeps.get.bind fun s => ?_
    grind [keeps_idup, Keeps.bind, keeps_namexLoop, Keeps.wait]

theorem keeps_namei (p : Fin NPROC) (path : List UInt8) : Keeps tables (namei p path) :=
  (keeps_namex p path false).bind fun _ => Keeps.pure _

theorem keeps_change (i : Fin NINODE) (c : Change) : Keeps tables (change i c) :=
  (keeps_setDin _ _).bind fun _ => keeps_iupdate _

theorem keeps_create (p : Fin NPROC) (path : List UInt8) (type : Itype) (major minor : Int) :
    Keeps tables (create p path type major minor) := by
  refine (keeps_namex _ _ _).bind fun parent => ?_
  split
  · exact Keeps.pure _
  refine (keeps_ilock _ _).bind fun _ => (keeps_dirlookup _ _).bind fun found => ?_
  split
  · refine (keeps_iunlockput _ _).bind fun _ => (keeps_ilock _ _).bind fun _ =>
      Keeps.get.bind fun s => ?_
    grind [Keeps.pure, keeps_iunlockput, Keeps.bind]
  refine (keeps_ialloc _ _).bind fun _ => (keeps_ilock _ _).bind fun _ =>
    (keeps_change _ _).bind fun _ =>
    Keeps.get.bind fun s => Keeps.bind (Keeps.when ?_) fun _ => (keeps_dirlink _ _ _ _).bind
      fun n => ?_
  · refine (keeps_change _ _).bind fun _ => ?_
    refine (keeps_dirlink _ _ _ _).bind fun n => ?_
    grind [Keeps.panic, keeps_dirlink, Keeps.bind, Keeps.when]
  · grind [Keeps.panic, keeps_iunlockput, Keeps.bind, Keeps.pure]

theorem keeps_openInode (p : Fin NPROC) (path : List UInt8) (omode : Int) :
    Keeps tables (openInode p path omode) := by
  have drop : ∀ ip, Keeps tables (do iunlockput p ip; return (none : Option (Fin NINODE))) :=
    fun ip => (keeps_iunlockput p ip).bind fun _ => Keeps.pure _
  unfold openInode
  split
  · exact keeps_create _ _ _ _ _
  refine (keeps_namei _ _).bind fun found => ?_
  split
  · exact Keeps.pure _
  refine (keeps_ilock _ _).bind fun _ => Keeps.get.bind fun s => ?_
  grind [Keeps.pure]

theorem keeps_filestat (p : Fin NPROC) (f : Fin NFILE) : Keeps tables (filestat p f) := by
  refine Keeps.get.bind fun s => ?_
  grind [keeps_ilock, Keeps.bind, keeps_iunlock, Keeps.pure]

end Names

section Tables

variable {allowed : Stops} {s : State}

/-- The state with another open file in the table. -/
def State.putFile (s : State) (f : Fin NFILE) (file : File) : State :=
  { s with ftable := Function.update s.ftable f file }

/-- The state with another pipe, or none, in the page. -/
def State.putPipe (s : State) (page : Nat) (pipe : Option Pipe) : State :=
  { s with pipes := Function.update s.pipes page pipe }

/-- The state with another process in the table. -/
def State.putTask (s : State) (p : Fin NPROC) (task : Task) : State :=
  { s with procs := Function.update s.procs p task }

theorem putFile_self (s : State) (f : Fin NFILE) (file : File) :
    (s.putFile f file).ftable f = file :=
  Function.update_self _ _ _

theorem putTask_self (s : State) (p : Fin NPROC) (task : Task) :
    (s.putTask p task).procs p = task :=
  Function.update_self _ _ _

theorem setFile_eq (f : Fin NFILE) (change : File → File) :
    setFile f change = Exec.modify fun s => s.putFile f (change (s.ftable f)) := rfl

theorem setTask_eq (p : Fin NPROC) (change : Task → Task) :
    setTask p change = Exec.modify fun s => s.putTask p (change (s.procs p)) := rfl

theorem filealloc_spec :
    Spec allowed filealloc s fun found s' => match found with
      | some f => (s.ftable f).ref = 0 ∧ s' = s.putFile f { s.ftable f with ref := 1 }
      | none => (∀ f, (s.ftable f).ref ≠ 0) ∧ s' = s := by
  refine Spec.bind_get ?_
  split
  · rename_i f found
    have unused := List.find?_some found
    rw [decide_eq_true_eq] at unused
    exact Spec.bind_modify (Spec.pure ⟨unused, rfl⟩)
  · rename_i none
    refine Spec.pure ⟨fun f zero => ?_, rfl⟩
    exact List.find?_eq_none.mp none f (List.mem_finRange f) (decide_eq_true zero)

/-- Process `p` with the file `f` in descriptor `fd`. -/
def State.putFd (s : State) (p : Fin NPROC) (fd : Fin NOFILE) (f : Option (Fin NFILE)) : State :=
  s.putTask p { s.procs p with ofile := Function.update (s.procs p).ofile fd f }

theorem fdalloc_spec (p : Fin NPROC) (f : Fin NFILE) :
    Spec allowed (fdalloc p f) s fun found s' => match found with
      | some fd => (s.procs p).ofile fd = none ∧ s' = s.putFd p fd (some f)
      | none => (∀ fd, (s.procs p).ofile fd ≠ none) ∧ s' = s := by
  refine Spec.bind_get ?_
  split
  · rename_i fd found
    have unused := List.find?_some found
    rw [decide_eq_true_eq] at unused
    exact Spec.bind_modify (Spec.pure ⟨unused, rfl⟩)
  · rename_i full
    refine Spec.pure ⟨fun fd free => ?_, rfl⟩
    exact List.find?_eq_none.mp full fd (List.mem_finRange fd) (decide_eq_true free)

end Tables

end Xv6.Fs
