import Mathlib.Algebra.BigOperators.Fin
import Mathlib.Algebra.Order.BigOperators.Group.Finset
import Xv6.Fs.Calls

/- What holds between two calls, whatever the calls were: each reference to a slot of the
inode cache is the directory of a process or an open file, and the inode has a type. -/
namespace Xv6.Fs

open Exec hiding panic
open Namecache CString

section Count

/-- A sum over a table, after a change of one place of it. -/
theorem sum_table_update {ι α : Type} [Fintype ι] [DecidableEq ι] (table : ι → α) (count : α → Nat)
    (i : ι) (a : α) :
    ∑ j, count (Function.update table i a j) + count (table i) = ∑ j,
      count (table j) + count a := by
  have others : ∑ j ∈ Finset.univ.erase i, count (Function.update table i a j) =
      ∑ j ∈ Finset.univ.erase i, count (table j) := by
    refine Finset.sum_congr rfl fun j member => ?_
    rw [Function.update_of_ne (Finset.ne_of_mem_erase member)]
  grind [Finset.add_sum_erase, Function.update_self]

theorem le_sum_table {ι α : Type} [Fintype ι] (table : ι → α) (count : α → Nat) (i : ι) :
    count (table i) ≤ ∑ j, count (table j) :=
  Finset.single_le_sum (fun j _ => Nat.zero_le (count (table j))) (Finset.mem_univ i)

/-- The references of a process to slot `i`. -/
def Task.refers (i : Fin NINODE) (task : Task) : Nat := if task.cwd = some i then 1 else 0

/-- The references of an open file to slot `i`. -/
def File.refers (i : Fin NINODE) (file : File) : Nat :=
  if file.type = .inode ∧ file.ip = i then 1 else 0

@[irreducible] def cwds (procs : Fin NPROC → Task) (i : Fin NINODE) : Nat := ∑ p, (procs p).refers i

@[irreducible] def opens (ftable : Fin NFILE → File) (i : Fin NINODE) : Nat :=
  ∑ f, (ftable f).refers i

theorem cwds_update (procs : Fin NPROC → Task) (p : Fin NPROC) (task : Task) (i : Fin NINODE) :
    cwds (Function.update procs p task) i + (procs p).refers i = cwds procs i + task.refers i := by
  unfold cwds
  exact sum_table_update procs (Task.refers i) p task

theorem opens_update (ftable : Fin NFILE → File) (f : Fin NFILE) (file : File) (i : Fin NINODE) :
    opens (Function.update ftable f file) i + (ftable f).refers i = opens ftable i +
      file.refers i := by
  unfold opens
  exact sum_table_update ftable (File.refers i) f file

theorem cwds_pos {procs : Fin NPROC → Task} {p : Fin NPROC} {i : Fin NINODE}
    (here : (procs p).cwd = some i) : 0 < cwds procs i := by
  have one := le_sum_table procs (Task.refers i) p
  grind [Task.refers, cwds]

theorem opens_pos {ftable : Fin NFILE → File} {f : Fin NFILE} (here : (ftable f).type = .inode) :
    0 < opens ftable (ftable f).ip := by
  have one := le_sum_table ftable (File.refers (ftable f).ip) f
  rw [File.refers, if_pos ⟨here, rfl⟩] at one
  unfold opens
  exact one

/-- Tables that refer to the same slots. -/
theorem cwds_congr {procs procs' : Fin NPROC → Task} (same : ∀ p, (procs p).cwd = (procs' p).cwd)
    (i : Fin NINODE) : cwds procs i = cwds procs' i := by
  grind [cwds, Finset.sum_congr, Task.refers]

/-- The two files are the same to the inodes. -/
structure File.Like (file file' : File) : Prop where
  inode : file.type = .inode ↔ file'.type = .inode
  ip : file.type = .inode → file.ip = file'.ip
  writable : file.type = .inode → file.writable = file'.writable

theorem File.Like.refl (file : File) : file.Like file := ⟨Iff.rfl, fun _ => rfl, fun _ => rfl⟩

theorem File.Like.refers {file file' : File} (like : file.Like file') (i : Fin NINODE) :
    file.refers i = file'.refers i := by
  by_cases inode : file.type = .inode
  · rw [File.refers, File.refers, inode, like.inode.mp inode, like.ip inode]
  · grind [File.refers, inode]

theorem opens_congr {ftable ftable' : Fin NFILE → File} (like : ∀ f, (ftable f).Like (ftable' f))
    (i : Fin NINODE) : opens ftable i = opens ftable' i := by
  unfold opens
  exact Finset.sum_congr rfl fun f _ => (like f).refers i

end Count

section Base

/-- What stands around a call that starts in `s`. -/
def State.outside (s : State) : Outside where
  procs := s.procs
  ftable := s.ftable
  devsw := s.devsw
  pipes := s.pipes
  refs := fun i => cwds s.procs i + opens s.ftable i
  inum := fun i => (s.icache i).inum
  kind := fun i => (s.dinodes (s.icache i).inum).type

theorem outside_refs (s : State) (i : Fin NINODE) :
    s.outside.refs i = cwds s.procs i + opens s.ftable i := rfl

structure Base (s : State) : Prop where
  mid : ∀ p, Midway s.outside p [] [] s
  idle : ∀ f, (s.ftable f).ref = 0 → (s.ftable f).type = .none
  /-- A file that is open for writing is not a directory. -/
  files : ∀ f, (s.ftable f).type = .inode → (s.ftable f).writable = true →
    (s.dinodes (s.icache (s.ftable f).ip).inum).type ≠ .dir

/-- The state with other processes, open files and pipes. -/
def State.retable (s : State) (procs : Fin NPROC → Task) (ftable : Fin NFILE → File)
    (pipes : Nat → Option Pipe) : State :=
  { s with procs := procs, ftable := ftable, pipes := pipes }

variable {c : Outside} {p : Fin NPROC} {held : List (Fin NINODE × Nat)} {locked : List (Fin NINODE)}
  {s : State}

theorem Midway.retable (mid : Midway c p held locked s) (procs : Fin NPROC → Task)
    (ftable : Fin NFILE → File) (pipes : Nat → Option Pipe) :
    Midway { c with procs := procs, ftable := ftable, pipes := pipes } p held locked
      (s.retable procs ftable pipes) := by
  have sane := mid.sane
  refine ⟨⟨⟨fun j => ?_, sane.owned, sane.sized, sane.numbered⟩, ?_, mid.counted, mid.names,
    mid.steady, mid.locks, mid.kinds, mid.alive, mid.whole⟩, mid.anchored⟩
  · have slot := sane.slots j
    exact ⟨slot.device, slot.alone, slot.coherent, slot.ahead, slot.typed, slot.held, slot.locked⟩
  · have devsw : s.devsw = c.devsw := congrArg (fun tables => tables.2.2.1) mid.tables
    simp only [Fs.tables, State.retable, devsw]

theorem Midway.procs (mid : Midway c p held locked s) :
    s.procs = c.procs := congrArg Prod.fst mid.tables

theorem Midway.ftable (mid : Midway c p held locked s) : s.ftable = c.ftable :=
  congrArg (fun tables => tables.2.1) mid.tables

theorem Midway.pipes (mid : Midway c p held locked s) : s.pipes = c.pipes :=
  congrArg (fun tables => tables.2.2.2) mid.tables

theorem Midway.putFile (mid : Midway c p held locked s) (f : Fin NFILE) (file : File) :
    Midway { c with ftable := Function.update c.ftable f file } p held locked
      (s.putFile f file) := by
  have same : s.putFile f file = s.retable c.procs (Function.update c.ftable f file) c.pipes := by
    rw [← mid.procs, ← mid.ftable, ← mid.pipes]
    rfl
  rw [same]
  exact mid.retable _ _ _

theorem Midway.putTask (mid : Midway c p held locked s) (q : Fin NPROC) (task : Task) :
    Midway { c with procs := Function.update c.procs q task } p held locked (s.putTask q task) := by
  have same : s.putTask q task = s.retable (Function.update c.procs q task) c.ftable c.pipes := by
    rw [← mid.procs, ← mid.ftable, ← mid.pipes]
    rfl
  rw [same]
  exact mid.retable _ _ _

/-- The same surroundings with one reference less to slot `i`. -/
def Outside.less (c : Outside) (i : Fin NINODE) : Outside :=
  { c with refs := Function.update c.refs i (c.refs i - 1) }

theorem Outside.less_refs (c : Outside) {i : Fin NINODE} (used : 0 < c.refs i) (X : Nat)
    (j : Fin NINODE) :
    (c.less i).refs j + ([(i, X)].map Prod.fst).count j = c.refs j := by
  change Function.update c.refs i (c.refs i - 1) j + _ = _
  rw [List.map_singleton, List.count_singleton]
  by_cases here : j = i
  · grind
  · have apart : (i == j) = false := beq_false_of_ne (Ne.symm here)
    rw [Function.update_of_ne here, apart]
    rfl

/-- A reference outside of the call becomes one of the call. -/
theorem Midway.take (mid : Midway c p held locked s) {i : Fin NINODE} (used : 0 < c.refs i) :
    Midway (c.less i) p ((i, c.inum i) :: held) locked s := by
  have fewer : ∀ j, 0 < (c.less i).refs j → 0 < c.refs j := by
    intro j some
    have total := c.less_refs used 0 j
    omega
  refine ⟨⟨mid.sane, mid.tables, fun j => ?_, fun h member => ?_, fun j some =>
    mid.steady j (fewer j some),
    mid.locks, fun j some => mid.kinds j (fewer j some), fun j some => mid.alive j (fewer j some),
    mid.whole⟩, mid.anchored⟩
  · have total := c.less_refs used (c.inum i) j
    have split : (((i, c.inum i) :: held).map Prod.fst).count j =
        (held.map Prod.fst).count j + ([(i, c.inum i)].map Prod.fst).count j := by
      rw [List.map_cons, List.count_cons, List.map_singleton, List.count_singleton]
    rw [mid.counted j, split]
    omega
  · rcases List.mem_cons.mp member with rfl | older
    · exact mid.steady i used
    · exact mid.names h older

/-- The call is over: what it holds is in the tables now. -/
theorem Midway.settle (mid : Midway c p held [] s)
    (counts : ∀ i, c.refs i + (held.map Prod.fst).count i = cwds s.procs i + opens s.ftable i)
    (typed : ∀ h ∈ held, (s.dinodes h.2).type ≠ .free) (q : Fin NPROC) :
    Midway s.outside q [] [] s := by
  refine ⟨⟨mid.sane, rfl, fun i => ?_, fun h member => (List.not_mem_nil member).elim,
    fun _ _ => rfl, fun i => ?_, fun _ _ => rfl, fun i used => ?_, mid.whole⟩, mid.anchored⟩
  · rw [mid.counted i, counts i, outside_refs, List.map_nil, List.count_nil, Nat.add_zero]
  · rw [mid.locks i, if_neg List.not_mem_nil, if_neg List.not_mem_nil]
  · change (s.dinodes (s.icache i).inum).type ≠ .free
    by_cases outside : 0 < c.refs i
    · rw [mid.steady i outside, mid.kinds i outside]
      exact mid.alive i outside
    · have some : 0 < (held.map Prod.fst).count i := by
        have total := counts i
        rw [outside_refs] at used
        omega
      obtain ⟨h, member, rfl⟩ := List.mem_map.mp (List.count_pos_iff.mp some)
      rw [mid.names h member]
      exact typed h member

theorem refs_cwd {cwd : Fin NINODE} (known : (s.procs p).cwd = some cwd) :
    0 < s.outside.refs cwd := by
  have some : 0 < cwds s.procs cwd := cwds_pos known
  rw [outside_refs]
  omega

/-- A process that runs has a directory; one that does not may wait for ever. -/
def Running (allowed : Stops) (s : State) (p : Fin NPROC) : Prop :=
  (s.procs p).cwd = none → allowed.waits

theorem Running.outside {allowed : Stops} (running : Running allowed s p) :
    s.outside.Running allowed p :=
  ⟨fun _ known => refs_cwd known, running⟩

theorem refs_file {f : Fin NFILE} (type : (s.ftable f).type = .inode) :
    0 < s.outside.refs (s.ftable f).ip := by
  have one := opens_pos type
  rw [outside_refs]
  omega

/-- A file that was open for writing, and still is. -/
theorem Midway.file (base : Base s) {s' : State} (mid : Midway c p held locked s')
    (kind : c.kind = s.outside.kind) {f : Fin NFILE}
    (type : (s.ftable f).type = .inode) (writable : (s.ftable f).writable = true)
    (used : 0 < c.refs (s.ftable f).ip) :
    (s'.dinodes (s'.icache (s.ftable f).ip).inum).type ≠ .dir := by
  rw [mid.steady _ used, mid.kinds _ used, kind]
  exact base.files f type writable

/-- Between two calls each inode without links is open or a directory of a process. -/
theorem Base.noOrphans (base : Base s) : NoOrphans s.outside.Used s.world := by
  refine (base.mid 0).noOrphans.mono fun X use => ?_
  rcases use with outside | ⟨h, member, _⟩
  · exact outside
  · exact (List.not_mem_nil member).elim

/-- A walk of a process that runs starts at an allocated inode. -/
theorem Base.start_allocated (base : Base s) (root : s.world.type ROOTINO ≠ .free)
    (running : (s.procs p).cwd ≠ none) (path : List UInt8) :
    s.world.type (s.outside.start p path) ≠ .free := by
  rw [Outside.start]
  split
  · exact root
  obtain ⟨cwd, known⟩ := Option.ne_none_iff_exists'.mp running
  have used : 0 < s.outside.refs cwd := refs_cwd known
  rw [show (s.outside.procs p).cwd = some cwd from known]
  exact (base.mid p).alive cwd used

/-- After a call that left the tables alone. -/
theorem Base.keep (base : Base s) {s' : State} (mid : Midway s.outside p [] [] s') : Base s' := by
  have procs : s'.procs = s.procs := mid.procs
  have ftable : s'.ftable = s.ftable := mid.ftable
  refine ⟨fun q => mid.settle (fun i => ?_) (fun h member => (List.not_mem_nil member).elim) q,
    ?_, ?_⟩
  · rw [procs, ftable, outside_refs, List.map_nil, List.count_nil, Nat.add_zero]
  · rw [ftable]
    exact base.idle
  · intro f type writable
    rw [ftable] at type writable ⊢
    exact mid.file base rfl type writable (refs_file type)

/-- After a change of the tables that shows in no reference. -/
theorem Base.retable (base : Base s) {procs : Fin NPROC → Task} {ftable : Fin NFILE → File}
    (pipes : Nat → Option Pipe) (cwd : ∀ p, (procs p).cwd = (s.procs p).cwd)
    (like : ∀ f, (ftable f).Like (s.ftable f))
    (idle : ∀ f, (ftable f).ref = 0 → (ftable f).type = .none) :
    Base (s.retable procs ftable pipes) := by
  refine ⟨fun q => ((base.mid q).retable procs ftable pipes).settle (fun i => ?_)
    (fun h member => (List.not_mem_nil member).elim) q, idle, fun f type writable => ?_⟩
  · change s.outside.refs i + _ = cwds procs i + opens ftable i
    rw [outside_refs, List.map_nil, List.count_nil, Nat.add_zero, cwds_congr cwd, opens_congr like]
  · change (ftable f).writable = _ at writable
    change (s.dinodes (s.icache (ftable f).ip).inum).type ≠ .dir
    rw [(like f).writable type] at writable
    rw [(like f).ip type]
    exact base.files f ((like f).inode.mp type) writable

end Base

end Xv6.Fs
