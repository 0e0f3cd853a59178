import Xv6.Fs.Files

/- The calls of sysfile.c and proc.c that change a process or open a file: they keep `Base`,
and do to the world what `Enters`, `Opens`, `Makes` and `Visits` say. -/
namespace Xv6.Fs

open Exec hiding panic
open Namecache CString

variable {held : List (Fin NINODE × Nat)} {omode : Int} {f : Fin NFILE} {i : Fin NINODE}

/-- The walk of process `p` along the path, from where it starts. -/
abbrev State.Walks (s : State) (p : Fin NPROC) (path : List UInt8) (parent : Bool) :=
  Names s.outside.Used parent s.world (s.outside.start p path) (elements path)

abbrev State.Tours (s : State) (allowed : Stops) (p : Fin NPROC) (path : List UInt8) :=
  Toured allowed s.outside.Used s.world (s.outside.start p path) (elements path)

variable {allowed : Stops} {p : Fin NPROC} {s : State} {path : List UInt8}

section Directory

variable {cwd : Fin NINODE} {task : Task} {s1 : State} {α : Type} {post : α → State → Prop}
  {q : Fin NPROC}

/-- The references that are left when a process leaves its directory. -/
theorem refs_left (known : (s.procs p).cwd = some cwd) (i : Fin NINODE) :
    (s.outside.less cwd).refs i + task.refers i =
      cwds (Function.update s.procs p task) i + opens s.ftable i := by
  have total := s.outside.less_refs (refs_cwd known) 0 i
  have fewer := cwds_update s.procs p task i
  have one : (s.procs p).refers i = ([(cwd, 0)].map Prod.fst).count i := by
    rw [Task.refers, List.map_singleton, List.count_singleton, known]
    simp only [Option.some.injEq, beq_iff_eq]
  rw [outside_refs] at total
  omega

/-- `iput` of the directory of the process, and the change of the process behind it. -/
theorem leave_step (base : Base s) (known : (s.procs p).cwd = some cwd)
    (mid : Midway s.outside p held [] s1) (change : Task → Task)
    (refers : ∀ i, (change (s.procs p)).refers i = (held.map Prod.fst).count i)
    (typed : ∀ h ∈ held, s1.world.type h.2 ≠ .free) :
    Spec allowed (do
      iput p cwd
      setTask p change
      return (0 : Int)) s1 fun r s' => r = 0 ∧ Base s' ∧ Drops s1.world s'.world := by
  refine Spec.bind (iput_step (mid.take (refs_cwd known)) none_locked) ?_
  rintro _ s2 ⟨mid2, drop⟩
  rw [setTask_eq]
  refine Spec.bind_modify (Spec.pure ?_)
  have procs : s2.procs = s.procs := mid2.procs
  have ftable : s2.ftable = s.ftable := mid2.ftable
  rw [procs]
  have moved := mid2.putTask p (change (s.procs p))
  refine ⟨rfl, ⟨fun q => moved.settle (fun i => ?_) (fun h member => ?_) q, ?_,
    fun f type writable => ?_⟩, Drops.one drop⟩
  · change (s.outside.less cwd).refs i + _ = cwds (Function.update s2.procs p _) i +
      opens s2.ftable i
    rw [procs, ftable, ← refers i, refs_left known]
  · change s2.world.type h.2 ≠ .free
    rw [drop.type_used (Or.inr ⟨h, member, rfl⟩)]
    exact typed h member
  · change ∀ f, (s2.ftable f).ref = 0 → (s2.ftable f).type = .none
    rw [ftable]
    exact base.idle
  · change (s2.ftable f).type = _ at type
    change (s2.ftable f).writable = _ at writable
    change (s2.dinodes (s2.icache (s2.ftable f).ip).inum).type ≠ .dir
    have some := opens_pos type
    rw [ftable] at type writable some ⊢
    refine mid2.file base rfl type writable ?_
    have left := @refs_left p s cwd { s.procs p with cwd := none } known (s.ftable f).ip
    have none : Task.refers (s.ftable f).ip { s.procs p with cwd := none } = 0 := by
      simp [Task.refers]
    omega

/-- The call drops the inode it has locked, and returns. -/
theorem drop_step {s2 : State} {ip : Fin NINODE} {I : Nat}
    (mid : Midway s.outside p [(ip, I)] [ip] s2) (r : α)
    (after : ∀ s3, Midway s.outside p [] [] s3 →
      Drop s.outside.Used s2.world I s3.world → post r s3) :
    Spec allowed (do
      iunlockput p ip
      return r) s2 post := by
  refine Spec.bind (iunlockput_step mid List.not_mem_nil) ?_
  rintro _ s3 ⟨mid3, drop⟩
  exact Spec.pure (after s3 mid3 (drop.mono (inUse_nil _)))

/-- The call looks up a path, and locks the inode that it finds. -/
theorem visit_step {missing : α} {body : Fin NINODE → Exec State α}
    (roomy : s.outside.Roomy allowed 2) (base : Base s) (running : Running allowed s p)
    (toured : s.Tours allowed p path)
    (lost : ∀ s1, s.Walks p path false s1.world none → Midway s.outside p [] [] s1 →
      post missing s1)
    (found : ∀ ip I name s2, s.Walks p path false s2.world (some (I, name)) →
      Midway s.outside p [(ip, I)] [ip] s2 → Spec allowed (body ip) s2 post) :
    Spec allowed (do
      match ← namei p path with
      | none => return missing
      | some ip =>
        ilock p ip
        body ip) s post := by
  obtain ⟨inv, tour, start⟩ := toured
  refine Spec.bind (namei_step roomy (by simp) tour (inUse_nil _) path (fun _ => running.outside)
    (base.mid p) start) fun named s1 arrived => ?_
  cases named with
  | none => exact Spec.pure (lost s1 arrived.1 arrived.2)
  | some ip =>
    obtain ⟨I, name, walk, mid1, known⟩ := arrived
    refine Spec.bind (ilock_step mid1 List.mem_cons_self none_locked (tour.typed _ _ _ known)) ?_
    rintro _ s2 ⟨mid2, world2, _, _⟩
    rw [← world2] at walk
    exact found ip I name s2 walk mid2

theorem chdir_step (roomy : s.outside.Roomy allowed 2) (base : Base s)
    (running : Running allowed s p) (toured : s.Tours allowed p path) :
    Spec allowed (sysChdir p path) s fun r s' => Base s' ∧
      Enters s.outside.Used s.world (s.outside.start p path) (elements path) s'.world r := by
  refine visit_step roomy base running toured
    (fun s1 walk mid => ⟨base.keep mid, Enters.refused (Visits.lost walk)⟩)
    fun ip I name s2 walk mid2 => ?_
  refine Spec.bind_get ?_
  rw [(mid2.sees List.mem_cons_self List.mem_cons_self).din]
  split
  · exact drop_step mid2 _ fun s3 mid3 drop =>
      ⟨base.keep mid3, Enters.refused (Visits.acts walk ⟨rfl, rfl⟩ drop)⟩
  rename_i type
  have dir : s2.world.type I = .dir := Decidable.not_not.mp type
  refine Spec.bind (iunlock_step mid2 List.not_mem_nil) ?_
  rintro _ s3 ⟨mid3, world3⟩
  have procs : s2.procs = s.procs := mid2.procs
  rw [procs]
  cases cwd : (s.procs p).cwd with
  | none => exact Spec.wait (running cwd)
  | some old =>
    refine Spec.mono (leave_step base cwd mid3 (fun task => { task with cwd := some ip }) ?_ ?_) ?_
    · intro i
      simp only [Task.refers, List.map_singleton, List.count_singleton, Option.some.injEq,
        beq_iff_eq]
    · grind
    · rintro _ s4 ⟨rfl, base4, drops⟩
      rw [world3] at drops
      exact ⟨base4, Enters.entered walk dir drops⟩

theorem exit_step (lenient : Lenient allowed) (base : Base s) (running : Running allowed s p) :
    Spec allowed (exit p) s fun _ s' => Base s' ∧ Drops s.world s'.world := by
  unfold exit
  split
  · exact Spec.panic (lenient _ (by decide))
  refine Spec.bind (closeFiles_step lenient base (List.finRange NOFILE)) ?_
  rintro _ s1 ⟨base1, drops, still⟩
  refine Spec.bind_get ?_
  cases cwd : (s1.procs p).cwd with
  | none => exact Spec.wait (running (still ▸ cwd))
  | some old =>
    refine Spec.mono (leave_step base1 cwd (base1.mid p) (fun task =>
      { task with cwd := none }) ?_ ?_) ?_
    · simp [Task.refers]
    · exact fun h member => (List.not_mem_nil member).elim
    · grind [Drops.trans]

theorem dupFiles_step (lenient : Lenient allowed) (base : Base s) (q : Fin NPROC)
    (fds : List (Fin NOFILE)) :
    Spec allowed (fork.dupFiles p q fds) s fun _ s' => Base s' ∧ s'.world = s.world ∧
      ∀ r, (s'.procs r).cwd = (s.procs r).cwd := by
  induction fds generalizing s with
  | nil => exact Spec.pure ⟨base, rfl, fun _ => rfl⟩
  | cons fd rest ih =>
    refine Spec.bind_get ?_
    split
    · rename_i f _
      refine Spec.bind (filedup_step lenient base f) ?_
      rintro _ s1 ⟨base1, world1, procs1⟩
      refine Spec.bind_modify (Spec.mono (ih (base1.putFd q fd (some f))) ?_)
      rintro _ s2 ⟨base2, world2, cwd2⟩
      refine ⟨base2, world2.trans world1, fun r => ?_⟩
      grind
    · exact ih base

/-- A process that had no directory takes the one that the call holds. -/
theorem Base.enter (base : Base s) {X : Nat} (mid : Midway s.outside p [(cwd, X)] [] s1)
    (free : (s.procs q).cwd = none) (new : task.cwd = some cwd) (typed : s1.world.type X ≠ .free) :
    Base (s1.putTask q task) := by
  have procs : s1.procs = s.procs := mid.procs
  have ftable : s1.ftable = s.ftable := mid.ftable
  refine ⟨fun r => (mid.putTask q task).settle (fun i => ?_) (fun h member => ?_) r, ?_,
    fun f type writable => ?_⟩
  · have more := cwds_update s.procs q task i
    have none : (s.procs q).refers i = 0 := by simp [Task.refers, free]
    have one : task.refers i = ([(cwd, X)].map Prod.fst).count i := by
      rw [Task.refers, List.map_singleton, List.count_singleton, new]
      simp only [Option.some.injEq, beq_iff_eq]
    change s.outside.refs i + _ = cwds (Function.update s1.procs q task) i + opens s1.ftable i
    rw [procs, ftable, outside_refs]
    omega
  · rw [List.mem_singleton] at member
    rw [member]
    exact typed
  · change ∀ f, (s1.ftable f).ref = 0 → (s1.ftable f).type = .none
    rw [ftable]
    exact base.idle
  · change (s1.ftable f).type = _ at type
    change (s1.ftable f).writable = _ at writable
    change (s1.dinodes (s1.icache (s1.ftable f).ip).inum).type ≠ .dir
    rw [ftable] at type writable ⊢
    exact mid.file base rfl type writable (refs_file type)

theorem fork_step (lenient : Lenient allowed) (base : Base s) (running : Running allowed s p)
    (free : (s.procs q).cwd = none) :
    Spec allowed (fork p q) s fun _ s' => Base s' ∧ s'.world = s.world := by
  refine Spec.bind_get (Spec.bind (dupFiles_step lenient base q (List.finRange NOFILE)) ?_)
  rintro _ s1 ⟨base1, world1, cwd1⟩
  cases known : (s.procs p).cwd with
  | none => exact Spec.wait (running known)
  | some cwd =>
    have refs := @refs_cwd p s1 cwd ((cwd1 p).trans known)
    refine Spec.bind (idup_step (base1.mid p) refs) ?_
    rintro ip s2 ⟨_, mid2, world2⟩
    refine Spec.bind_modify (Spec.pure ⟨base1.enter mid2 ((cwd1 q).trans free) rfl ?_,
      world2.trans world1⟩)
    rw [world2]
    exact (base1.mid p).alive cwd refs

end Directory

section Open

/-- The inodes that `sys_open` without O_CREATE refuses to a user. -/
def Refuses (omode uid : Int) (din : Dinode) : Prop :=
  din.type = .dir ∧ omode ≠ O_RDONLY ∨
  (omode = O_RDONLY ∨ omode = O_RDWR) ∧ (uid ≠ 0 ∧ uid ≠ din.uid) ∧ din.mode &&& S_IROTH = 0 ∨
  (omode = O_WRONLY ∨ omode = O_RDWR) ∧ (uid ≠ 0 ∧ uid ≠ din.uid) ∧ din.mode &&& S_IWOTH = 0

/-- What `openInode` leaves: the inode that is to be opened, locked. -/
def Brought (s : State) (p : Fin NPROC) (omode : Int) (s' : State) :
    Option (Fin NINODE) → Option Nat → Prop
  | none, none => Midway s.outside p [] [] s'
  | some ip, some I => Midway s.outside p [(ip, I)] [ip] s' ∧
      ((hasBits omode O_WRONLY || hasBits omode O_RDWR) = true → s'.world.type I ≠ .dir)
  | _, _ => False

theorem openInode_step (lenient : hasBits omode O_CREATE = true → Lenient allowed) (base : Base s)
    (running : Running allowed s p)
    (roomy : s.outside.Roomy allowed (if hasBits omode O_CREATE then 3 else 2))
    (toured : s.Tours allowed p path)
    (waits : hasBits omode O_CREATE = true → ∀ w P name X, s.Walks p path true w (some (P, name)) →
      Lookup w P name w none → w.vacant = some X → Unsnarled allowed (s.outside.fresh p .file)
      w P name X) :
    Spec allowed (openInode p path omode) s fun found s' => ∃ result,
      OpensInode s.outside.Used (hasBits omode O_CREATE = true) (Refuses omode (s.procs p).uid)
        (s.outside.fresh p .file)
        s.world (s.outside.start p path) (elements path) s'.world result ∧
          Brought s p omode s' found result := by
  unfold openInode
  split
  · rename_i creates
    rw [if_pos creates] at roomy
    refine Spec.mono (create_step (lenient creates) roomy running.outside (by decide) 0 0
      (base.mid p) toured (waits creates)) ?_
    intro found s1 post
    cases found with
    | none => exact ⟨none, OpensInode.created creates post.1, post.2⟩
    | some ip =>
      obtain ⟨I, made, mid1, type⟩ := post
      refine ⟨some I, OpensInode.created creates made, mid1, fun _ => ?_⟩
      rw [type]
      exact Itype.noConfusion
  · rename_i plain
    rw [if_neg plain] at roomy
    refine visit_step roomy base running toured
      (fun s1 walk mid => ⟨none, OpensInode.lost plain walk, mid⟩) fun ip I name s2 walk mid2 => ?_
    -- Each check that fails drops the inode again.
    have refuse (denied : Refuses omode (s.procs p).uid (s2.dinodes I)) : Spec allowed (do
        iunlockput p ip
        return (none : Option (Fin NINODE))) s2 fun found s' => ∃ result,
        OpensInode s.outside.Used (hasBits omode O_CREATE = true) (Refuses omode (s.procs p).uid)
          (s.outside.fresh p .file) s.world (s.outside.start p path)
          (elements path) s'.world result ∧ Brought s p omode s' found result :=
      drop_step mid2 _ fun s3 mid3 drop => ⟨none, OpensInode.refused plain walk denied drop, mid3⟩
    have procs2 : s2.procs = s.procs := mid2.procs
    refine Spec.bind_get ?_
    dsimp only
    rw [(mid2.sees List.mem_cons_self List.mem_cons_self).din, procs2]
    split
    · rename_i writesDir
      exact refuse (Or.inl writesDir)
    rename_i allowedType
    split
    · rename_i reads
      exact refuse (Or.inr (Or.inl reads))
    rename_i mayRead
    split
    · rename_i writes
      exact refuse (Or.inr (Or.inr writes))
    rename_i mayWrite
    have granted : ¬ Refuses omode (s.procs p).uid (s2.dinodes I) :=
      not_or.mpr ⟨allowedType, not_or.mpr ⟨mayRead, mayWrite⟩⟩
    refine Spec.pure ⟨some I, OpensInode.found plain walk granted, mid2, fun writes dir => ?_⟩
    have readOnly : omode = O_RDONLY := by
      by_contra other
      exact allowedType ⟨dir, other⟩
    rw [readOnly] at writes
    revert writes
    decide

/-- A file that was not in use is now for the inodes that the call holds. -/
theorem Base.install (base : Base s) {s' : State} {c : Outside} {file : File}
    (mid : Midway c p held [] s') (refs : c.refs = s.outside.refs) (kind : c.kind = s.outside.kind)
    (cwd : ∀ q, (c.procs q).cwd = (s.procs q).cwd)
    (ftable : c.ftable = Function.update s.ftable f file) (unused : (s.ftable f).type = .none)
    (refers : ∀ i, file.refers i = (held.map Prod.fst).count i)
    (idle : file.ref = 0 → file.type = .none) (typed : ∀ h ∈ held, s'.world.type h.2 ≠ .free)
    (plain : file.type = .inode → file.writable = true →
      (s'.dinodes (s'.icache file.ip).inum).type ≠ .dir) : Base s' := by
  have table : s'.ftable = Function.update s.ftable f file := mid.ftable.trans ftable
  refine ⟨fun r => mid.settle (fun i => ?_) typed r, fun g => ?_, fun g type writable => ?_⟩
  · have more := opens_update s.ftable f file i
    have none : (s.ftable f).refers i = 0 := by simp [File.refers, unused]
    rw [table, mid.procs, cwds_congr cwd, refs, outside_refs, ← refers i]
    omega
  · rw [table]
    grind [Function.update_self, Function.update_of_ne, idle]
  · rw [table] at type writable ⊢
    by_cases here : g = f
    · grind
    · rw [Function.update_of_ne here] at type writable ⊢
      refine mid.file base kind type writable ?_
      rw [refs]
      exact refs_file type

/-- `fileclose` of a file that `filealloc` has just given. -/
theorem fileclose_unused (ref : (s.ftable f).ref = 1) (type : (s.ftable f).type = .none) :
    Spec allowed (fileclose p f) s fun _ s' => s' = s.putFile f (s.ftable f).closed := by
  refine Spec.bind_get ?_
  dsimp only
  rw [ref, type, if_neg (by decide), if_neg (by decide), setFile_eq]
  exact Spec.bind_modify (Spec.pure rfl)

/-- There is a free open file, and process `p` has a free descriptor. -/
def Room (s : State) (p : Fin NPROC) : Prop :=
  (∃ f, (s.ftable f).ref = 0) ∧ ∃ fd, (s.procs p).ofile fd = none

instance (s : State) (p : Fin NPROC) :
    Decidable (Room s p) := inferInstanceAs (Decidable ((∃ _, _) ∧ ∃ _, _))

theorem open_step (lenient : hasBits omode O_CREATE = true → Lenient allowed) (base : Base s)
    (running : Running allowed s p)
    (roomy : s.outside.Roomy allowed (if hasBits omode O_CREATE then 3 else 2))
    (toured : s.Tours allowed p path)
    (waits : hasBits omode O_CREATE = true → ∀ w P name X, s.Walks p path true w (some (P, name)) →
      Lookup w P name w none → w.vacant = some X → Unsnarled allowed (s.outside.fresh p .file)
      w P name X) :
    Spec allowed (sysOpen p path omode) s fun r s' => Base s' ∧
      Opens s.outside.Used (hasBits omode O_CREATE = true) (Room s p)
        (Refuses omode (s.procs p).uid)
        (s.outside.fresh p .file) s.world (s.outside.start p path) (elements path) s'.world r := by
  refine Spec.bind (openInode_step lenient base running roomy toured waits) ?_
  rintro found s1 ⟨result, opened, brought⟩
  match found, result, brought with
  | none, none, mid1 => exact Spec.pure ⟨base.keep mid1, Opens.failed opened⟩
  | some ip, some I, ⟨mid1, plain⟩ =>
    have ftable1 : s1.ftable = s.ftable := mid1.ftable
    have procs1 : s1.procs = s.procs := mid1.procs
    refine Spec.bind filealloc_spec ?_
    intro found s2 post
    cases found with
    | none =>
      rw [post.2]
      refine Spec.bind (iunlockput_step mid1 List.not_mem_nil) ?_
      rintro _ s3 ⟨mid3, drop⟩
      refine Spec.pure ⟨base.keep mid3, Opens.full opened ?_ (drop.mono (inUse_nil _))⟩
      rintro ⟨⟨f, free⟩, _⟩
      rw [← ftable1] at free
      exact post.1 f free
    | some f =>
      obtain ⟨free, rfl⟩ := post
      rw [ftable1] at free
      have unused := base.idle f free
      have mid2 := mid1.putFile f { s1.ftable f with ref := 1 }
      refine Spec.bind (fdalloc_spec p f) ?_
      intro found s3 post
      cases found with
      | none =>
        rw [post.2]
        refine Spec.bind (fileclose_unused ?_ ?_) ?_
        · rw [putFile_self]
        · rw [putFile_self, ftable1]
          exact unused
        rintro _ _ rfl
        refine Spec.bind (iunlockput_step (mid2.putFile f _) List.not_mem_nil) ?_
        rintro _ s4 ⟨mid4, drop⟩
        refine Spec.pure ⟨?_, Opens.full opened ?_ (drop.mono (inUse_nil _))⟩
        · exact base.install mid4 rfl rfl (fun _ => rfl) (Function.update_idem _ _ _) unused
            (refers_closed _) (fun _ => rfl) (fun h member => (List.not_mem_nil member).elim)
            (fun impossible => FileType.noConfusion impossible)
        · rintro ⟨_, fd, empty⟩
          rw [← procs1] at empty
          exact post.1 fd empty
      | some fd =>
        obtain ⟨empty, rfl⟩ := post
        have mid3 := mid2.putTask p { (s1.putFile f { s1.ftable f with ref := 1 }).procs p with
          ofile := Function.update ((s1.putFile f { s1.ftable f with ref := 1 }).procs p).ofile fd
            (some f) }
        refine Spec.bind (iunlock_step mid3 List.not_mem_nil) ?_
        rintro _ s4 ⟨mid4, world4⟩
        refine Spec.bind_modify (Spec.pure ⟨?_, ?_⟩)
        · have world : s4.world = s1.world := world4
          have file : s4.ftable f = { s1.ftable f with ref := 1 } := by
            rw [mid4.ftable]
            exact Function.update_self _ _ _
          refine base.install (mid4.putFile f _) rfl rfl (fun q => ?_)
            (Function.update_idem _ _ _) unused
            (fun i => ?_) (fun zero => ?_) (fun h member => ?_) (fun _ writes => ?_)
          · change (Function.update s.procs p _ q).cwd = _
            by_cases here : q = p
            · subst here
              rw [Function.update_self]
              change (s1.procs q).cwd = _
              rw [procs1]
            · rw [Function.update_of_ne here]
          · simp only [File.refers, true_and, List.map_singleton, List.count_singleton, beq_iff_eq]
          · rw [file] at zero
            cases zero
          · rw [List.mem_singleton] at member
            rw [member]
            change s4.world.type I ≠ .free
            rw [world]
            exact (mid1.sees List.mem_cons_self List.mem_cons_self).allocated
          · change s4.world.type (s4.icache ip).inum ≠ .dir
            rw [mid4.names _ List.mem_cons_self, world]
            exact plain writes
        · have room : Room s p := by
            refine ⟨⟨f, free⟩, fd, ?_⟩
            rw [← procs1]
            exact empty
          change Opens _ _ _ _ _ _ _ _ s4.world _
          rw [world4]
          exact Opens.done opened room (Int.natCast_nonneg _)

/-- `sys_mkdir` and `sys_mknod` create an inode and drop it. -/
theorem makes_step (lenient : Lenient allowed) (roomy : s.outside.Roomy allowed 3) (base : Base s)
    (running : Running allowed s p) {type : Itype} (typed : type ≠ .free) (major minor : Int)
    (toured : s.Tours allowed p path)
    (waits : ∀ w P name X, s.Walks p path true w (some (P, name)) → Lookup w P name w none →
      w.vacant = some X → Unsnarled allowed (s.outside.fresh p type) w P name X) :
    Spec allowed (do
      match ← create p path type major minor with
      | none => return (-1 : Int)
      | some ip =>
        iunlockput p ip
        return 0) s fun r s' => Base s' ∧
      Makes s.outside.Used (s.outside.fresh p type) s.world (s.outside.start p path) (elements path)
        s'.world r := by
  refine Spec.bind (create_step lenient roomy running.outside typed major minor (base.mid p)
    toured waits) ?_
  intro found s1 post
  cases found with
  | none => exact Spec.pure ⟨base.keep post.2, Makes.failed post.1⟩
  | some ip =>
    obtain ⟨I, made, mid1, _⟩ := post
    exact drop_step mid1 _ fun s2 mid2 drop => ⟨base.keep mid2, Makes.done made drop⟩

/-- What `sys_chmod` does to inode `I`, for a process of the given user. -/
def Chmods (uid mode : Int) (w : World) (I : Nat) (w' : World) (r : Int) : Prop :=
  w' = w ∧ r = -1 ∨ w' = w.change I (.chmod mode) ∧ r = 0 ∧ (uid = 0 ∨ uid = (w.inode I).uid)

theorem chmod_step (roomy : s.outside.Roomy allowed 2) (base : Base s)
    (running : Running allowed s p) (mode : Int) (toured : s.Tours allowed p path) :
    Spec allowed (sysChmod p path mode) s fun r s' => Base s' ∧
      Visits s.outside.Used (Chmods (s.procs p).uid mode) s.world (s.outside.start p path)
        (elements path) s'.world r := by
  refine visit_step roomy base running toured
    (fun s1 walk mid => ⟨base.keep mid, Visits.lost walk⟩) fun ip I name s2 walk mid2 => ?_
  have procs : s2.procs = s.procs := mid2.procs
  refine Spec.bind_get ?_
  rw [(mid2.sees List.mem_cons_self List.mem_cons_self).din, procs]
  split
  · exact drop_step mid2 _ fun s3 mid3 drop =>
      ⟨base.keep mid3, Visits.acts walk (Or.inl ⟨rfl, rfl⟩) drop⟩
  rename_i permitted
  rw [not_and_or, Decidable.not_not, Decidable.not_not] at permitted
  refine Spec.bind (change_step mid2 List.mem_cons_self List.mem_cons_self _) ?_
  rintro _ s3 ⟨mid3, world3⟩
  exact drop_step mid3 _ fun s4 mid4 drop =>
    ⟨base.keep mid4, Visits.acts walk (Or.inr ⟨world3, rfl, permitted⟩) drop⟩

/-- What `sys_chown` does to inode `I`. -/
def Chowns (uid : Int) (w : World) (I : Nat) (w' : World) (r : Int) : Prop :=
  w' = w.change I (.chown uid) ∧ r = 0

theorem chown_step (roomy : s.outside.Roomy allowed 2) (base : Base s)
    (running : Running allowed s p) (uid : Int) (toured : s.Tours allowed p path) :
    Spec allowed (sysChown p path uid) s fun r s' => Base s' ∧ (s'.world = s.world ∧ r = -1 ∨
      (s.procs p).uid = 0 ∧ Visits s.outside.Used (Chowns uid) s.world (s.outside.start p path)
        (elements path) s'.world r) := by
  refine Spec.bind_get ?_
  split
  · exact Spec.pure ⟨base, Or.inl ⟨rfl, rfl⟩⟩
  rename_i root
  have root := Decidable.not_not.mp root
  refine visit_step roomy base running toured
    (fun s1 walk mid => ⟨base.keep mid, Or.inr ⟨root, Visits.lost walk⟩⟩)
    fun ip I name s2 walk mid2 => ?_
  refine Spec.bind (change_step mid2 List.mem_cons_self List.mem_cons_self _) ?_
  rintro _ s3 ⟨mid3, world3⟩
  exact drop_step mid3 _ fun s4 mid4 drop =>
    ⟨base.keep mid4, Or.inr ⟨root, Visits.acts walk ⟨world3, rfl⟩ drop⟩⟩

end Open

section Loader

/-- The loops of `exec` only read. -/
theorem loaduvm_spec (sane : Sane clean s)
    (used : 0 < (s.icache i).ref) (valid : (s.icache i).valid = true) (offset sz : Nat) :
    Spec allowed (loaduvm i offset sz) s fun _ s' => s' = s := by
  have loop : ∀ offs, Spec allowed (loaduvm.loop i offset sz offs) s fun _ s' => s' = s := by
    intro offs
    induction offs with
    | nil => exact Spec.pure rfl
    | cons off rest ih =>
      unfold loaduvm.loop
      dsimp only
      refine Spec.bind (readi_spec sane used valid rfl _ _) ?_
      grind [Spec.pure]
  exact loop _

theorem loadProgram_spec (sane : Sane clean s) (used : 0 < (s.icache i).ref)
    (valid : (s.icache i).valid = true) (enough : Nat → Bool) (k off sz : Nat) :
    Spec allowed (loadProgram enough i k off sz) s fun _ s' => s' = s := by
  induction k generalizing off sz with
  | zero => exact Spec.pure rfl
  | succ k ih =>
    refine Spec.bind (readi_spec sane used valid rfl _ _) ?_
    rintro result s1 ⟨same, _⟩
    rw [same]
    dsimp only
    split
    · exact Spec.pure rfl
    split
    · exact ih _ _
    split
    · exact Spec.pure rfl
    split
    · exact Spec.pure rfl
    split
    · exact Spec.pure rfl
    split
    · exact Spec.pure rfl
    refine Spec.bind (loaduvm_spec sane used valid _ _) ?_
    grind [Spec.pure]

theorem exec_step (roomy : s.outside.Roomy allowed 2) (base : Base s)
    (running : Running allowed s p) (setupkvm : Bool) (enough : Nat → Bool) (rest : Bool)
    (toured : s.Tours allowed p path) :
    Spec allowed (exec p path setupkvm enough rest) s fun r s' => Base s' ∧
      Visits s.outside.Used (fun w _ w' _ => w' = w) s.world (s.outside.start p path)
        (elements path) s'.world r := by
  refine visit_step roomy base running toured
    (fun s1 walk mid => ⟨base.keep mid, Visits.lost walk⟩) fun ip I name s2 walk mid2 => ?_
  have sees := mid2.sees List.mem_cons_self List.mem_cons_self
  -- On every path the inode is dropped once.
  have drops : ∀ r : Int, Spec allowed (do
      iunlockput p ip
      return r) s2 fun r s' => Base s' ∧
      Visits s.outside.Used (fun w _ w' _ => w' = w) s.world (s.outside.start p path)
        (elements path) s'.world r := fun r => drop_step mid2 r fun s3 mid3 drop =>
    ⟨base.keep mid3, Visits.acts walk rfl drop⟩
  refine Spec.bind (readi_spec mid2.sane sees.used sees.valid rfl _ _) ?_
  rintro result s3 ⟨same, _⟩
  rw [same]
  dsimp only
  split
  · exact drops _
  split
  · exact drops _
  split
  · exact drops _
  refine Spec.bind (loadProgram_spec mid2.sane sees.used sees.valid _ _ _ _) ?_
  rintro loaded s4 rfl
  split
  · exact drops _
  · exact drops _

end Loader

end Xv6.Fs
