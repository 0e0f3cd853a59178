import Xv6.Fs.Tables
import Xv6.Mkfs.Sound

/- The system from its start on an image of mkfs: any process makes any call, one call
after the other. -/
namespace Xv6.Fs

open Exec hiding panic
open Namecache CString

/-- The calls that use the file system. What the rest of the kernel answers is an argument:
the page of a pipe, the memory for a program, the process that `fork` takes (none when it
fails), and the user and group that sys_setuid, sys_login and sys_setsuid set. -/
inductive Call where
  | sysOpen (path : List UInt8) (omode : Int)
  | sysMkdir (path : List UInt8)
  | sysMknod (path : List UInt8) (major minor : Int)
  | sysLink (old new : List UInt8)
  | sysUnlink (path : List UInt8)
  | sysChdir (path : List UInt8)
  | sysClose (fd : Int)
  | sysDup (fd : Int)
  | sysPipe (kalloc : Option (Nat × (Fin PIPESIZE → UInt8)))
  | sysRead (fd : Int) (n : Nat)
  | sysWrite (fd : Int) (src : List UInt8)
  | sysFstat (fd : Int)
  | sysChmod (path : List UInt8) (mode : Int)
  | sysChown (path : List UInt8) (uid : Int)
  | exec (path : List UInt8) (setupkvm : Bool) (enough : Nat → Bool) (rest : Bool)
  | fork (child : Option (Fin NPROC))
  | exit
  | setCreds (uid gid : Int)

/-- Process `p` makes the call. -/
def Call.perform (p : Fin NPROC) : Call → Exec State Int
  | .sysOpen path omode => Fs.sysOpen p path omode
  | .sysMkdir path => Fs.sysMkdir p path
  | .sysMknod path major minor => Fs.sysMknod p path major minor
  | .sysLink old new => Fs.sysLink p old new
  | .sysUnlink path => Fs.sysUnlink p path
  | .sysChdir path => Fs.sysChdir p path
  | .sysClose fd => Fs.sysClose p fd
  | .sysDup fd => Fs.sysDup p fd
  | .sysPipe kalloc => Fs.sysPipe p kalloc
  | .sysRead fd n => Fs.sysRead p fd n
  | .sysWrite fd src => Fs.sysWrite p fd src
  | .sysFstat fd => Fs.sysFstat p fd
  | .sysChmod path mode => Fs.sysChmod p path mode
  | .sysChown path uid => Fs.sysChown p path uid
  | .exec path setupkvm enough rest => Fs.exec p path setupkvm enough rest
  | .fork (some q) => Fs.fork p q
  | .fork none => return -1
  | .exit => Fs.exit p
  | .setCreds uid gid => do
    setTask p fun task => { task with uid := uid, gid := gid }
    return 0

/-- The process that `fork` takes does not run, and the page of a pipe holds no other one. -/
def Call.possible (s : State) : Call → Bool
  | .fork (some q) => (s.procs q).cwd.isNone
  | .sysPipe (some kalloc) => (s.pipes kalloc.1).isNone
  | _ => true

/-- A process that runs has a directory. -/
def callStep (s : State) (e : Fin NPROC × Call) : Outcome (Int × State) :=
  if (s.procs e.1).cwd ≠ none ∧ e.2.possible s = true then e.2.perform e.1 s else .blocked

/-- The state after the calls, if each of them returns. -/
def runCalls (s : State) (calls : List (Fin NPROC × Call)) : Option State :=
  Runs.run (fun s e => (callStep s e).toOption.map Prod.snd) s calls

/-- The first process, in the root directory. -/
def userinit : Exec State Unit := do
  let cwd ← namei 0 [47]
  setTask 0 fun task => { task with cwd := cwd, uid := 0, gid := 0 }

/-- The state in which the first process starts. -/
def started (im : Mkfs.Image) (devsw : Int → Option Device) : Outcome State :=
  (userinit (im.boot devsw)).map Prod.snd

/-- The state after the calls, from the start of the first process on. -/
def runSystem (im : Mkfs.Image) (devsw : Int → Option Device) (calls : List (Fin NPROC × Call)) :
    Option State :=
  (started im devsw).toOption.bind fun s => runCalls s calls

section Refinement

variable (s : State) (p : Fin NPROC)

/-- What a call does to the world. -/
def Call.Does (w' : World) (r : Int) : Call → Prop
  | .sysOpen path omode => Opens s.outside.Used (hasBits omode O_CREATE = true) (Room s p)
      (Refuses omode (s.procs p).uid) (s.outside.fresh p .file) s.world
      (s.outside.start p path) (elements path) w' r
  | .sysMkdir path => Makes s.outside.Used (s.outside.fresh p .dir) s.world (s.outside.start p path)
      (elements path) w' r
  | .sysMknod path _ _ => Makes s.outside.Used (s.outside.fresh p .dev) s.world
      (s.outside.start p path) (elements path) w' r
  | .sysLink old new => Links s.outside.Used s.world (s.outside.start p old) (elements old)
      (s.outside.start p new) (elements new) w' r
  | .sysUnlink path => Unlinks s.outside.Used s.world (s.outside.start p path) (elements path) w' r
  | .sysChdir path => Enters s.outside.Used s.world (s.outside.start p path) (elements path) w' r
  | .sysChmod path mode => Visits s.outside.Used (Chmods (s.procs p).uid mode) s.world
      (s.outside.start p path) (elements path) w' r
  | .sysChown path uid => w' = s.world ∧ r = -1 ∨ (s.procs p).uid = 0 ∧
      Visits s.outside.Used (Chowns uid) s.world (s.outside.start p path) (elements path) w' r
  | .exec path _ _ _ => Visits s.outside.Used (fun w _ w' _ => w' = w) s.world
      (s.outside.start p path) (elements path) w' r
  | .sysClose _ => Drops s.world w'
  | .exit => Drops s.world w'
  | .sysWrite _ _ => Writes s.world w'
  | _ => w' = s.world

variable (allowed : Stops)

/-- `create` finds none of the inodes that it has locked, or may wait for ever. -/
def CreateSafe (type : Itype) (path : List UInt8) : Prop :=
  ∀ w P name X, Names s.outside.Used true s.world (s.outside.start p path) (elements path) w
    (some (P, name)) →
    Lookup w P name w none → w.vacant = some X → Unsnarled allowed (s.outside.fresh p type)
    w P name X

/-- So does `sys_link`. -/
def LinkSafe (old new : List UInt8) : Prop :=
  ∀ w I name w1 P last w2 k,
    Names s.outside.Used false s.world (s.outside.start p old) (elements old) w (some (I, name)) →
    w.type I ≠ .dir → w.type I ≠ .free →
    Names (With s.outside.Used I) true (w.change I .link) (s.outside.start p new) (elements new) w1
      (some (P, last)) →
    Lookup w1 P last w2 (some (P, k)) → allowed.waits

/-- So does `sys_unlink`. -/
def UnlinkSafe (path : List UInt8) : Prop :=
  ∀ w P name w1 k, Names s.outside.Used true s.world (s.outside.start p path) (elements path) w
    (some (P, name)) → ¬ Dots name → Lookup w P name w1 (some (P, k)) → allowed.waits

/-- A walk of the process finds inodes with a type, or may panic. -/
def WalkSafe (path : List UInt8) : Prop :=
  Toured allowed s.outside.Used s.world (s.outside.start p path) (elements path)

/-- The descriptor is not one of a pipe, or the process may wait for ever. -/
def FdSafe (fd : Int) : Prop :=
  ∀ i f, argfd p fd s = some (i, f) → (s.ftable f).type = .pipe → allowed.waits

/-- The call ends, or panics or waits as it may. -/
def Call.Safe : Call → Prop
  | .sysOpen path _ => WalkSafe s p allowed path ∧ CreateSafe s p allowed .file path
  | .sysMkdir path => WalkSafe s p allowed path ∧ CreateSafe s p allowed .dir path
  | .sysMknod path _ _ => WalkSafe s p allowed path ∧ CreateSafe s p allowed .dev path
  | .sysLink old new => WalkSafe s p allowed old ∧
      (∀ w I name, Names s.outside.Used false s.world (s.outside.start p old) (elements old) w
        (some (I, name)) → w.type I ≠ .dir → w.type I ≠ .free →
        Toured allowed (With s.outside.Used I) (w.change I .link) (s.outside.start p new)
        (elements new)) ∧
      LinkSafe s p allowed old new
  | .sysUnlink path => WalkSafe s p allowed path ∧ UnlinkSafe s p allowed path
  | .sysChdir path => WalkSafe s p allowed path
  | .sysChmod path _ => WalkSafe s p allowed path
  | .sysChown path _ => WalkSafe s p allowed path
  | .exec path _ _ _ => WalkSafe s p allowed path
  | .sysRead fd _ => FdSafe s p allowed fd
  | .sysWrite fd _ => FdSafe s p allowed fd
  | _ => True

variable {s p allowed}

/-- How many slots of the inode cache a call may need at once, beside those in use. -/
def Call.slots : Call → Nat
  | .sysOpen _ omode => if hasBits omode O_CREATE then 3 else 2
  | .sysMkdir _ | .sysMknod _ _ _ | .sysLink _ _ => 3
  | .sysUnlink _ | .sysChdir _ | .sysChmod _ _ | .sysChown _ _ | .exec _ _ _ _ => 2
  | _ => 0

/-- Every walk is fine when `ilock` may find no type. -/
theorem toured_of_panics (untyped : allowed "ilock: no type") (used : Nat → Prop) (w : World)
    (X : Nat) (names : List (List UInt8)) : Toured allowed used w X names :=
  ⟨fun _ _ _ => True, ⟨fun _ _ _ _ _ => untyped, fun _ _ _ _ _ _ _ _ _ _ _ _ => trivial⟩, trivial⟩

/-- So is every call when it may wait, too. -/
theorem safe_of_panics (untyped : allowed "ilock: no type") (waits : allowed.waits) (s : State)
    (p : Fin NPROC) (call : Call) : call.Safe s p allowed := by
  have walk : ∀ used w X names, Toured allowed used w X names := toured_of_panics untyped
  have create : ∀ type path, CreateSafe s p allowed type path :=
    fun _ _ _ _ _ _ _ _ _ => ⟨fun _ _ => waits, fun _ _ _ _ _ _ _ => waits⟩
  cases call with
  | sysOpen | sysMkdir | sysMknod => exact ⟨walk _ _ _ _, create _ _⟩
  | sysLink => exact ⟨walk _ _ _ _, fun _ _ _ _ _ _ => walk _ _ _ _,
      fun _ _ _ _ _ _ _ _ _ _ _ _ _ => waits⟩
  | sysUnlink => exact ⟨walk _ _ _ _, fun _ _ _ _ _ _ _ _ => waits⟩
  | sysChdir | sysChmod | sysChown | exec => exact walk _ _ _ _
  | sysRead | sysWrite => exact fun _ _ _ _ => waits
  | sysClose | sysDup | sysPipe | sysFstat | fork | exit | setCreds => trivial

/-- A call keeps `Base` and does to the world what `Call.Does` says. -/
theorem call_refines (lenient : Lenient allowed) (base : Base s) (running : Running allowed s p)
    (call : Call) (roomy : s.outside.Roomy allowed call.slots) (possible : call.possible s = true)
    (safe : call.Safe s p allowed) :
    Spec allowed (call.perform p) s fun r s' => Base s' ∧ call.Does s p s'.world r := by
  cases call with
  | sysOpen path omode => exact open_step (fun _ => lenient) base running roomy safe.1 fun _ =>
    safe.2
  | sysMkdir path => exact makes_step lenient roomy base running (by decide) 0 0 safe.1 safe.2
  | sysMknod path major minor =>
    exact makes_step lenient roomy base running (by decide) major minor safe.1 safe.2
  | sysLink old new =>
    refine Spec.mono (link_step lenient roomy running.outside (base.mid p) safe.1 safe.2.1
      safe.2.2) ?_
    rintro _ s' ⟨mid, links⟩
    exact ⟨base.keep mid, links⟩
  | sysUnlink path =>
    refine Spec.mono (unlink_step lenient roomy running.outside (base.mid p) safe.1 safe.2) ?_
    rintro _ s' ⟨mid, unlinks⟩
    exact ⟨base.keep mid, unlinks⟩
  | sysChdir path => exact chdir_step roomy base running safe
  | sysClose fd => exact close_step lenient base fd
  | sysDup fd => exact dup_step lenient base fd
  | sysPipe kalloc => exact pipe_step lenient base kalloc
  | sysRead fd n =>
    refine Spec.bind_get ?_
    split
    · exact Spec.pure ⟨base, rfl⟩
    · rename_i i f found
      exact read_step lenient base f n (safe i f found)
  | sysWrite fd src =>
    refine Spec.bind_get ?_
    split
    · exact Spec.pure ⟨base, Writes.refl _⟩
    · rename_i i f found
      exact write_step lenient base f src (safe i f found)
  | sysFstat fd =>
    refine Spec.bind_get ?_
    split
    · exact Spec.pure ⟨base, rfl⟩
    · exact stat_step base _
  | sysChmod path mode => exact chmod_step roomy base running mode safe
  | sysChown path uid => exact chown_step roomy base running uid safe
  | exec path setupkvm enough rest => exact exec_step roomy base running setupkvm enough rest safe
  | fork child =>
    cases child with
    | some q => exact fork_step lenient base running (Option.isNone_iff_eq_none.mp possible)
    | none => exact Spec.pure ⟨base, rfl⟩
  | exit => exact exit_step lenient base running
  | setCreds uid gid =>
    refine Spec.bind_modify (Spec.pure ⟨?_, rfl⟩)
    refine base.retable _ (fun q => ?_) (fun f => File.Like.refl _) base.idle
    grind

end Refinement

section Start

variable {im : Mkfs.Image} {files : List Mkfs.Source} {devsw : Int → Option Device}

/-- The inodes of an image have one link each. -/
theorem made_nlink (made : Mkfs.Made im files) {j : Nat} (allocated : (im.dinodes j).type ≠ .free) :
    (im.dinodes j).nlink = 1 := by
  have numbered := (made.sane fun _ => none).numbered j allocated
  by_cases root : j = ROOTINO
  · rw [root]
    exact made.nlink
  · by_cases inside : j < 2 + files.length
    · exact (made.files j (by simp only [ROOTINO] at root ⊢; omega) inside).2
    · exact (allocated (made.unused j (by omega))).elim

/-- The root is the only directory of an image. -/
theorem made_dir (made : Mkfs.Made im files) {j : Nat} (dir : (im.dinodes j).type = .dir) :
    j = ROOTINO := by
  have allocated : (im.dinodes j).type ≠ .free := by
    rw [dir]
    exact Itype.noConfusion
  have numbered := (made.sane fun _ => none).numbered j allocated
  by_contra other
  by_cases inside : j < 2 + files.length
  · have file := (made.files j (by simp only [ROOTINO] at other ⊢; omega) inside).1
    rw [dir] at file
    cases file
  · have free := made.unused j (by omega)
    rw [dir] at free
    cases free

theorem boot_entries (made : Mkfs.Made im files) {D : Nat} (apart : D ≠ ROOTINO) :
    (im.boot devsw).world.entries D = [] :=
  if_neg fun dir => apart (made_dir made dir)

theorem boot_root (made : Mkfs.Made im files) : ∃ free, (im.boot devsw).world.entries ROOTINO =
    [⟨ROOTINO, strncpy [46] DIRSIZ⟩, ⟨ROOTINO, strncpy [46, 46] DIRSIZ⟩] ++ Mkfs.fileEntries
      2 files ++ List.replicate free Dirent.zero := by
  obtain ⟨free, entries⟩ := made.entries
  exact ⟨free, (if_pos made.type).trans entries⟩

/-- Before the first process there are no references. -/
theorem base_boot (made : Mkfs.Made im files) : Base (im.boot devsw) := by
  have none : ∀ i, (im.boot devsw).outside.refs i = 0 := by
    intro i
    rw [outside_refs]
    have cwd : cwds (im.boot devsw).procs i = 0 := by
      unfold cwds
      exact Finset.sum_eq_zero fun _ _ => rfl
    have file : opens (im.boot devsw).ftable i = 0 := by
      unfold opens
      exact Finset.sum_eq_zero fun _ _ => rfl
    rw [cwd, file]
  have unused : ∀ i, ¬ 0 < (im.boot devsw).outside.refs i := by grind
  refine ⟨fun p => ⟨⟨made.sane devsw, rfl, fun i => ?_, fun h member =>
    (List.not_mem_nil member).elim,
    fun _ _ => rfl, fun _ => rfl, fun _ _ => rfl, fun i used => (unused i used).elim,
    fun j dir => ?_⟩,
    fun X allocated zero => ?_⟩, fun _ _ => rfl, fun f type => FileType.noConfusion type⟩
  · rw [none i, List.map_nil, List.count_nil]
    rfl
  · rw [made_dir made dir]
    change DIRENTSIZE ∣ (im.dinodes ROOTINO).size
    rw [made.size]
    exact ⟨BSIZE / DIRENTSIZE, rfl⟩
  · change (im.dinodes X).nlink = 0 at zero
    rw [made_nlink made allocated] at zero
    cases zero

/-- When the first process starts the world is that of the image. -/
theorem started_base (made : Mkfs.Made im files) {s : State} (start : started im devsw = .ok s) :
    Base s ∧ s.world = (im.boot devsw).world := by
  obtain ⟨⟨_, s'⟩, ran, rfl⟩ := Outcome.map_eq_ok.mp start
  have base := @base_boot im files devsw made
  have spec : Spec Stops.all userinit (im.boot devsw) fun _ s =>
    Base s ∧ s.world = (im.boot devsw).world := by
    have running : Running Stops.all (im.boot devsw) 0 := fun _ => trivial
    have roomy : (im.boot devsw).outside.Roomy Stops.all 2 := Or.inr trivial
    obtain ⟨inv, tour, start⟩ := @toured_of_panics Stops.all trivial
      (im.boot devsw).outside.Used (im.boot devsw).world ((im.boot devsw).outside.start 0 [47])
      (elements [47])
    refine Spec.bind (namei_step roomy (by simp) tour (inUse_nil _) [47] (fun _ => running.outside)
      (base.mid 0) start) ?_
    rw [show elements [47] = [] from rfl, show (im.boot devsw).outside.start 0 [47] =
      ROOTINO from rfl]
    intro found s1 post
    cases found with
    | none =>
      have stays : some (ROOTINO, ([] : List UInt8)) = none :=
        congrArg Prod.snd (post.1.eq_walk base.noOrphans).1
      cases stays
    | some ip =>
      obtain ⟨I, name, walk, mid1, _⟩ := post
      have stays := (walk.eq_walk base.noOrphans).1
      simp only [World.walk, Bool.false_eq_true, ↓reduceIte, Prod.mk.injEq,
        Option.some.injEq] at stays
      obtain ⟨world, rfl, _⟩ := stays
      refine Spec.modify ⟨base.enter mid1 rfl rfl ?_, world.symm⟩
      rw [← world]
      change (im.dinodes ROOTINO).type ≠ .free
      rw [made.type]
      exact Itype.noConfusion
  exact spec.ok ran

/-- Each call of the run meets `ok` in the state it is made from. -/
def SystemMeets (ok : State → Fin NPROC × Call → Prop) (im : Mkfs.Image)
    (devsw : Int → Option Device) (calls : List (Fin NPROC × Call)) : Prop :=
  ∀ s, started im devsw = .ok s → Runs.Meets (fun s e => (callStep s e).toOption.map Prod.snd)
    ok s calls

instance {ok : State → Fin NPROC × Call → Prop} [∀ s e, Decidable (ok s e)] (im : Mkfs.Image)
    (devsw : Int → Option Device) (calls : List (Fin NPROC × Call)) :
    Decidable (SystemMeets ok im devsw calls) :=
  match start : started im devsw with
  | .ok s => decidable_of_iff (Runs.Meets (fun s e => (callStep s e).toOption.map Prod.snd)
      ok s calls) (by simp [SystemMeets, start])
  | .panic _ | .blocked => isTrue (by simp [SystemMeets, start])

theorem callStep_eq_ok {s s' : State} {p : Fin NPROC} {call : Call} {r : Int} :
    callStep s (p, call) = .ok (r, s') ↔
      ((s.procs p).cwd ≠ none ∧ call.possible s = true) ∧ call.perform p s = .ok (r, s') := by
  rw [callStep]
  grind

/-- A call that returns keeps `Base`, and does what it is for. -/
theorem callStep_base {s s' : State} {p : Fin NPROC} {call : Call} {r : Int} (base : Base s)
    (taken : callStep s (p, call) = .ok (r, s')) : Base s' ∧ call.Does s p s'.world r := by
  obtain ⟨⟨_, possible⟩, ran⟩ := callStep_eq_ok.mp taken
  have lenient : Lenient Stops.all := fun _ _ => trivial
  have safe : call.Safe s p Stops.all := safe_of_panics trivial trivial s p call
  exact (call_refines lenient base (fun _ => trivial) call (Or.inr trivial) possible safe).ok ran

/-- A call does not panic with messages that its functions do not give, if it has slots of
the inode cache or that panic is not among them. -/
theorem callStep_never {messages : List String} {s : State} {p : Fin NPROC} {call : Call}
    (base : Base s) (unexpected : ∀ message ∈ messages, message ∉ "ilock: no type" :: expected)
    (roomy : s.outside.Roomy (Stops.except messages) call.slots) {message : String}
    (member : message ∈ messages) :
    callStep s (p, call) ≠ .panic message := by
  intro panics
  rw [callStep] at panics
  split at panics
  · rename_i can
    have lenient : Lenient (Stops.except messages) :=
      fun m known among => unexpected m among (List.mem_cons_of_mem _ known)
    have untyped : (Stops.except messages).panics "ilock: no type" :=
      fun among => unexpected _ among List.mem_cons_self
    have spec := call_refines lenient base (fun none => (can.1 none).elim) call roomy can.2
      (safe_of_panics untyped trivial s p call)
    exact spec.panicked panics member
  · cases panics

/-- What holds when the first process starts, and every call keeps that meets `ok`. -/
theorem run_system {ok : State → Fin NPROC × Call → Prop} {inv : State → Prop}
    (made : Mkfs.Made im files)
    (initial : ∀ s, started im devsw = .ok s → s.world = (im.boot devsw).world → inv s)
    (step : ∀ s p call r s', Base s → inv s → ok s (p, call) → callStep s (p, call) = .ok
      (r, s') → inv s')
    {calls : List (Fin NPROC × Call)} {s : State} (meets : SystemMeets ok im devsw calls)
    (reached : runSystem im devsw calls = some s) : Base s ∧ inv s := by
  obtain ⟨first, start, ran⟩ := Option.bind_eq_some_iff.mp reached
  rw [Outcome.toOption_eq_some] at start
  obtain ⟨base, world⟩ := started_base made start
  refine @Runs.run_preserves _ _ _ _ (fun s => Base s ∧ inv s) ?_ _ _ _ (meets first start) ran
    ⟨base, initial first start world⟩
  rintro s e next fine ⟨base, holds⟩ stepped
  obtain ⟨⟨r, s'⟩, taken, rfl⟩ := Option.map_eq_some_iff.mp stepped
  rw [Outcome.toOption_eq_some] at taken
  exact ⟨(callStep_base base taken).1, step s e.1 e.2 r s' base holds fine taken⟩

/-- The same for what every call keeps. -/
theorem run_system_all {inv : State → Prop} (made : Mkfs.Made im files)
    (initial : ∀ s, started im devsw = .ok s → s.world = (im.boot devsw).world → inv s)
    (step : ∀ s p call r s', Base s → inv s → callStep s (p, call) = .ok (r, s') → inv s')
    {calls : List (Fin NPROC × Call)} {s : State} (reached : runSystem im devsw calls = some s) :
    Base s ∧ inv s := by
  have meets : SystemMeets (fun _ _ => True) im devsw calls :=
    fun _ _ => Runs.Meets.of_forall (fun _ _ _ => trivial) _
  exact run_system made initial (fun s p call r s' base holds _ => step s p call r s' base holds)
    meets reached

/-- No condition on the calls. -/
theorem run_system_base (made : Mkfs.Made im files) {calls : List (Fin NPROC × Call)} {s : State}
    (reached : runSystem im devsw calls = some s) : Base s :=
  (@run_system_all im files devsw (fun _ => True) made (fun _ _ _ => trivial)
    (fun _ _ _ _ _ _ _ _ => trivial) calls s reached).1

end Start

end Xv6.Fs
