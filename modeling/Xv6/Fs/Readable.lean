import Xv6.Fs.Owner
import Xv6.Fs.Slots

/- Who may read what, in a system where nobody calls chmod. The kernel's ialloc gives a new
inode the default mode of its type, which lets everybody read; the ialloc of mkfs leaves the
mode zero. -/
namespace Xv6.Fs

open Exec

section Walks

variable {allowed : Stops} {used : Nat → Prop} {w : World} {X I : Nat} {names : List (List UInt8)}
  {name : List UInt8}

/-- A walk that arrives at an allocated inode finds no other ones. -/
theorem toured_of_walk (none : NoOrphans used w) (there : (w.walk false X names).2 = some (I, name))
    (allocated : w.type I ≠ .free) : Toured allowed used w X names := by
  refine ⟨fun w X names => NoOrphans used w ∧ w.type I ≠ .free ∧ (w.walk false X names).2 =
    some (I, name), ⟨fun w X names known free => ?_, ?_⟩, none, allocated, there⟩
  · obtain ⟨_, allocated, there⟩ := known
    cases names with
    | nil =>
      rw [World.walk, if_neg Bool.false_ne_true, Option.some.injEq, Prod.mk.injEq] at there
      grind
    | cons first rest =>
      have other : w.type X ≠ .dir := by
        rw [free]
        exact Itype.noConfusion
      rw [World.walk, if_pos other] at there
      cases there
  · rintro w X first rest w1 J k w2 ⟨none, allocated, there⟩ dir lookup drop
    have recached := lookup.recached
    rw [World.walk, if_neg (not_not_intro dir), if_neg (fun asked => Bool.false_ne_true asked.1),
      lookup.eq] at there
    obtain rfl := drop.still ((none.recached recached).with J)
    refine ⟨none.recached recached, ?_, there⟩
    obtain ⟨cache, rfl⟩ := recached
    exact allocated

end Walks

section Modes

/-- The mode that the kernel's `ialloc` gives to an inode. -/
def defaultMode (type : Itype) : Nat := (newDinode type 0 0).mode

/-- Every inode in use has the default mode of its type, or the one of mkfs. -/
def Moded (w : World) : Prop :=
  ∀ j, w.type j ≠ .free → (w.inode j).mode = 0 ∨ (w.inode j).mode = defaultMode (w.type j)

variable {s : State} {p : Fin NPROC} {call : Call} {w w' : World} {r : Int}

theorem SameRights.moded (same : SameRights w w') (moded : Moded w) : Moded w' := by
  intro j allocated
  have type := same.type allocated
  have mode : (w'.inode j).mode = (w.inode j).mode := congrArg (fun rights => rights.2.2)
    (same.rights j)
  rw [type] at allocated
  rw [mode, type]
  exact moded j allocated

/-- A call that is not chmod. -/
def Call.LeavesModes (call : Call) : Prop := ∀ path mode, call ≠ .sysChmod path mode

/-- No call but chmod sets the mode of an inode in use. -/
theorem Effect.moded (effect : Effect s p call w' r) (moded : Moded s.world)
    (leaves : call.LeavesModes) :
    Moded w' := by
  cases effect with
  | looked fills => exact fills.sameRights.moded moded
  | made aim reach kind makes fills dir lookup vacant begins links drop =>
    rename_i w1 w2 w3 type P X name
    have free := (vacant_spec vacant).2.2
    have apart : X ≠ P := by grind
    have before : Moded w1 := fills.sameRights.moded moded
    have after : Moded w2 := by
      intro j allocated
      have rights := begins.rights apart j
      rw [begins.type] at allocated ⊢
      split
      · rename_i here
        rw [if_pos here] at rights
        exact Or.inr (congrArg (fun rights => rights.2.2) rights)
      · rename_i other
        rw [if_neg other] at rights allocated
        have mode : (w2.inode j).mode = (w1.inode j).mode :=
          congrArg (fun rights => rights.2.2) rights
        rw [mode]
        exact before j allocated
    exact (links.sameRights.trans drop.sameRights).moded after
  | linked _ _ _ _ fills _ _ more links drop =>
    exact (fills.sameRights.trans ((sameRights_change _ _ fun _ => rfl).trans (more.sameRights.trans
      (links.sameRights.trans drop.sameRights)))).moded moded
  | undone fills _ _ more drop =>
    exact (fills.sameRights.trans ((sameRights_change _ _ fun _ => rfl).trans (more.sameRights.trans
      ((sameRights_change _ _ fun _ => rfl).trans drop.sameRights)))).moded moded
  | removed _ _ _ fills dir _ lookup removes =>
    have found := (@Lookup.filled [_] _ _ _ _ _ lookup dir fun _ => List.mem_cons_self).sameRights
    exact (fills.sameRights.trans (found.trans removes.sameRights)).moded moded
  | dropped fills drops => exact (fills.sameRights.trans drops.sameRights).moded moded
  | wrote writes => exact writes.sameRights.moded moded
  | chmod isChmod => exact (leaves _ _ isChmod).elim
  | chown isChown allowed fills eq =>
    rename_i w1 I path uid
    have before : Moded w1 := fills.sameRights.moded moded
    rw [eq]
    intro j allocated
    rw [type_change] at allocated ⊢
    have same : ((w1.change I (.chown uid)).inode j).mode = (w1.inode j).mode := by
      change (Function.update w1.inode I _ j).mode = _
      by_cases here : j = I
      · rw [here, Function.update_self]
        rfl
      · rw [Function.update_of_ne here]
    rw [same]
    exact before j allocated

end Modes

section Open

/-- What the process may read, as `sys_open` decides it. -/
theorem refuses_read_iff {uid : Int} {din : Dinode}
    (moded : din.mode = 0 ∨ din.mode = defaultMode din.type) :
    ¬ Refuses O_RDONLY uid din ↔ uid = 0 ∨ uid = din.uid ∨ din.mode = defaultMode din.type := by
  have others : defaultMode din.type &&& S_IROTH ≠ 0 := by
    cases din.type <;> decide
  have positive : defaultMode din.type ≠ 0 := by grind
  have plain : Refuses O_RDONLY uid din ↔ (uid ≠ 0 ∧ uid ≠ din.uid) ∧ din.mode &&& S_IROTH = 0 := by
    simp [Refuses, O_RDONLY, O_WRONLY, O_RDWR]
  rw [plain]
  rcases moded with zero | default
  · grind
  · rw [default]
    simp [others]

variable {im : Mkfs.Image} {files : List Mkfs.Source} {devsw : Int → Option Device}
  {calls : List (Fin NPROC × Call)} {s : State} {p : Fin NPROC} {path name : List UInt8} {I : Nat}

section Granted

variable {omode : Int}

/-- `sys_open` of an existing inode, where a descriptor is free, depends on its checks only. -/
theorem Opens.granted_iff {w' : World} {r : Int} (none : NoOrphans s.outside.Used s.world)
    (plain : ¬ hasBits omode O_CREATE = true) (descriptor : Room s p)
    (there : (s.world.walk false (s.outside.start p path) (elements path)).2 = some (I, name))
    (opens : Opens s.outside.Used (hasBits omode O_CREATE = true) (Room s p)
      (Refuses omode (s.procs p).uid) (s.outside.fresh p .file) s.world (s.outside.start p path)
      (elements path) w' r) :
    0 ≤ r ↔ ¬ Refuses omode (s.procs p).uid (s.dinodes I) := by
  have arrives : ∀ {w' J last}, s.Walks p path false w'
      (some (J, last)) → w'.inode J = s.dinodes I := by
    intro w' J last walk
    obtain ⟨same, cache, rfl⟩ := walk.eq_walk none
    rw [same] at there
    cases there
    rfl
  cases opens with
  | failed opened =>
    refine iff_of_false (by decide) ?_
    cases opened with
    | created asked => exact (plain asked).elim
    | lost _ walk =>
      rw [(walk.eq_walk none).1] at there
      cases there
    | refused _ walk denied _ =>
      grind
  | full _ full _ => exact (full descriptor).elim
  | done opened _ some =>
    refine iff_of_true some ?_
    cases opened with
    | created asked => exact (plain asked).elim
    | found _ walk granted =>
      rw [arrives walk] at granted
      exact granted

/-- With two slots in the inode cache `sys_open` of an existing inode returns. -/
theorem open_returns (base : Base s) (plain : ¬ hasBits omode O_CREATE = true)
    (running : (s.procs p).cwd ≠ none) (slots : slotsInUse s + 2 ≤ NINODE)
    (there : (s.world.walk false (s.outside.start p path) (elements path)).2 = some (I, name))
    (allocated : (s.dinodes I).type ≠ .free) :
    ∃ r s', callStep s (p, .sysOpen path omode) = .ok (r, s') := by
  have roomy : s.outside.Roomy Stops.nothing (if hasBits omode O_CREATE then 3 else 2) := by
    rw [base.slotsInUse] at slots
    rw [if_neg plain]
    exact Or.inl slots
  have spec := open_step (fun creates => (plain creates).elim) base (fun idle =>
    (running idle).elim) roomy
    (toured_of_walk base.noOrphans there allocated) fun creates => (plain creates).elim
  obtain ⟨r, s', returned, _⟩ := spec.total
  exact ⟨r, s', callStep_eq_ok.mpr ⟨⟨running, rfl⟩, returned⟩⟩

end Granted

/-- After any run on an image of mkfs without chmod, with a free open file and descriptor and
two slots in the inode cache, a process can open an existing file or directory for reading
exactly if it is the superuser, or the owner, or the inode has the default mode: mkfs does not
give it. -/
theorem open_read_iff_default (made : Mkfs.mkfs files = some im) (few : files.length < NINODES - 1)
    (room : im.freeblock ≤ FSSIZE) (leaves : ∀ e ∈ calls, e.2.LeavesModes)
    (reached : runSystem im devsw calls = some s) (running : (s.procs p).cwd ≠ none)
    (descriptor : Room s p) (slots : slotsInUse s + 2 ≤ NINODE)
    (there : (s.world.walk false (s.outside.start p path) (elements path)).2 = some (I, name))
    (kind : (s.dinodes I).type = .file ∨ (s.dinodes I).type = .dir) :
    (∃ fd s', 0 ≤ fd ∧ callStep s (p, .sysOpen path O_RDONLY) = .ok (fd, s')) ↔
      (s.procs p).uid = 0 ∨ (s.procs p).uid = (s.dinodes I).uid ∨
        (s.dinodes I).mode = defaultMode (s.dinodes I).type := by
  have image := Mkfs.mkfs_made made few room
  have holds : Base s ∧ Moded s.world := by
    refine @run_system im files devsw (fun _ e => e.2.LeavesModes) (fun s => Moded s.world) image
      (fun s _ world j _ => ?_) (fun s p call r s' base moded leaves taken => ?_) calls s
      (fun _ _ => ?_) reached
    · rw [world]
      exact Or.inl (image.mode j)
    · exact (callStep_effect base taken).moded moded leaves
    · exact Runs.Meets.of_forall (fun _ => leaves) _
  obtain ⟨base, moded⟩ := holds
  have allocated : s.world.type I ≠ .free := by
    rcases kind with file | dir
    · exact fun free => by cases file.symm.trans free
    · exact fun free => by cases dir.symm.trans free
  have plain : ¬ hasBits O_RDONLY O_CREATE = true := by decide
  obtain ⟨r, s', taken⟩ := open_returns base plain running slots there allocated
  have only : (∃ fd s', 0 ≤ fd ∧ callStep s (p, .sysOpen path O_RDONLY) = .ok (fd, s')) ↔ 0 ≤ r :=
    by
    constructor
    · rintro ⟨fd, after, some, same⟩
      rw [taken] at same
      cases same
      exact some
    · exact fun some => ⟨r, s', some, taken⟩
  have mode : (s.dinodes I).mode = 0 ∨ (s.dinodes I).mode = defaultMode (s.dinodes I).type :=
    moded I allocated
  rw [only, ← refuses_read_iff mode]
  exact Opens.granted_iff base.noOrphans plain descriptor there (callStep_base base taken).2

/-- The superuser makes a file and goes on as user 1000. -/
def madeByKernel :
    List (Fin NPROC × Call) := [(0, .sysOpen [47, 97] 0x202), (0, .setCreds 1000 1000)]

theorem open_read_iff_default_madeByKernel : ∃ im s, Mkfs.mkfs [] = some im ∧
    runSystem im (fun _ => none) madeByKernel = some s ∧ (s.procs 0).uid = 1000 ∧
      (s.dinodes 2).uid = 0 ∧
    ∃ fd s', 0 ≤ fd ∧ callStep s (0, .sysOpen [47, 97] O_RDONLY) = .ok (fd, s') := by
  obtain ⟨im, made, room, s, ran, running, descriptor, slots, there, file, mode, uid, owner⟩ :
      Mkfs.Yields [] fun im => ∃ s ∈ runSystem im (fun _ => none) madeByKernel,
        (s.procs 0).cwd ≠ none ∧ Room s 0 ∧ slotsInUse s + 2 ≤ NINODE ∧
        (s.world.walk false (s.outside.start 0 [47, 97]) (elements [47, 97])).2 = some (2, []) ∧
        (s.dinodes 2).type = .file ∧ (s.dinodes 2).mode = defaultMode .file ∧
        (s.procs 0).uid = 1000 ∧ (s.dinodes 2).uid = 0 := by decide +kernel
  have leaves : ∀ e ∈ madeByKernel, e.2.LeavesModes := by
    intro e member path mode
    simp only [madeByKernel, List.mem_cons, List.not_mem_nil, or_false] at member
    rcases member with rfl | rfl <;> exact Call.noConfusion
  refine ⟨im, s, made, ran, uid, owner, (open_read_iff_default made (by decide) room leaves
    ran running descriptor slots there (Or.inl file)).mpr (Or.inr (Or.inr ?_))⟩
  rw [mode, file]

/-- On an empty image user 1 cannot open the root directory. -/
theorem root_not_readable : ∃ im s s', Mkfs.mkfs [] = some im ∧ im.freeblock ≤ FSSIZE ∧
    runSystem im (fun _ => none) [(0, .setCreds 1 1)] = some s ∧ Room s 0 ∧
      slotsInUse s + 2 ≤ NINODE ∧
    (s.world.walk false (s.outside.start 0 [47]) (elements [47])).2 = some (ROOTINO, []) ∧
    (s.dinodes ROOTINO).type = .dir ∧ (s.dinodes ROOTINO).mode = 0 ∧ defaultMode .dir = 0o755 ∧
    callStep s (0, .sysOpen [47] O_RDONLY) = .ok (-1, s') := by
  obtain ⟨im, made, room, s, ran, descriptor, slots, there, dir, mode, called⟩ :
      Mkfs.Yields [] fun im => ∃ s ∈ runSystem im (fun _ => none) [(0, .setCreds 1 1)],
        Room s 0 ∧ slotsInUse s + 2 ≤ NINODE ∧
        (s.world.walk false (s.outside.start 0 [47]) (elements [47])).2 = some (ROOTINO, []) ∧
        (s.dinodes ROOTINO).type = .dir ∧ (s.dinodes ROOTINO).mode = 0 ∧
        (callStep s (0, .sysOpen [47] O_RDONLY)).toOption.map Prod.fst = some (-1) := by
    decide +kernel
  obtain ⟨⟨r, s'⟩, called, rfl⟩ := Option.map_eq_some_iff.mp called
  rw [Outcome.toOption_eq_some] at called
  exact ⟨im, s, s', made, room, ran, descriptor, slots, there, dir, mode, rfl, called⟩

end Open

end Xv6.Fs
