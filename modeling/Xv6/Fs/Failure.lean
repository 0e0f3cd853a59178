import Xv6.Fs.Effect

/- A call on names that fails leaves the disk as it is, unless it is `sys_open` that makes
a file and then has no descriptor for it. -/
namespace Xv6.Fs

open Namecache CString

section Calls

variable {used : Nat → Prop} {w w1 w2 w' : World} {X I : Nat} {names : List (List UInt8)}

/-- `create` made nothing, or an inode for a name that was not there. -/
theorem Creates.sorted {new : Dinode} {found : Option Nat} (none : NoOrphans used w)
    (creates : Creates used new w X names w' found) :
    (Recached w w' ∧ ¬ ∃ t, w.target X names = some t ∧ (t.world.lookup t.dir t.name).2 =
      Option.none) ∨
    (∃ t, w.target X names = some t ∧ (t.world.lookup t.dir t.name).2 = Option.none) ∧
      ∃ I, found = some I ∧ w.type I = .free ∧ w'.type I = new.type ∧ w'.nlink I ≠ 0 := by
  have there : ∀ {w1 w2 : World} {P I k : Nat} {name : List UInt8}, Names used true w X names w1
      (some (P, name)) → Lookup w1 P name w2 (some (I, k)) →
      ¬ ∃ t, w.target X names = some t ∧ (t.world.lookup t.dir t.name).2 = Option.none := by
    rintro w1 w2 P I k name walk lookup ⟨t, aim, missing⟩
    rw [walk.target none] at aim
    cases aim
    rw [lookup.eq] at missing
    cases missing
  cases creates with
  | lost walk =>
    obtain ⟨same, recached⟩ := walk.eq_walk none
    refine Or.inl ⟨recached, ?_⟩
    grind [World.target]
  | opened walk dir lookup drop file =>
    have recached := (walk.eq_walk none).2.trans lookup.recached
    rw [drop.still ((none.recached recached).with _)]
    exact Or.inl ⟨recached, there walk lookup⟩
  | refused walk dir lookup dropParent drop =>
    have recached := (walk.eq_walk none).2.trans lookup.recached
    rw [dropParent.still ((none.recached recached).with _)] at drop
    rw [drop.still (none.recached recached)]
    exact Or.inl ⟨recached, there walk lookup⟩
  | made walk dir lookup vacant begins links drop =>
    rename_i w1 w2 w3 P I name
    have free := (vacant_spec vacant).2.2
    have apart : I ≠ P := by grind
    have type : w'.type I = new.type := by
      rw [drop.type_used (Or.inr rfl), links.type, begins.type, if_pos rfl]
    obtain ⟨_, rfl⟩ := (walk.eq_walk none).2
    refine Or.inr ⟨⟨_, walk.target none, ?_⟩, I, rfl, free, type, ?_⟩
    · rw [lookup.eq]
    · rw [drop.nlink_of_ne apart, links.nlink, begins.nlink apart]
      exact one_ne_zero

theorem Links.failed {Y : Nat} {new : List (List UInt8)} {r : Int}
    (links : Links used w X names Y new w' r) (none : NoOrphans used w) (short : ShortLinks w)
    (failed : r = -1) : Recached w w' := by
  -- The error path, after a second walk that did not free anything.
  have back : ∀ {w1 w2 I}, Recached w w1 → w1.type I ≠ .free → Recached (w1.change I .link) w2 →
      Drop used (w2.change I .unlink) I w' → Recached w w' := by
    intro w1 w2 I first allocated second drop
    have undone := first.trans (recached_undone ?_ second)
    · rw [drop.still (none.recached undone)]
      exact undone
    · obtain ⟨_, rfl⟩ := first
      exact short I allocated
  cases links with
  | lost walk => exact (walk.eq_walk none).2
  | directory walk _ drop =>
    have recached := (walk.eq_walk none).2
    rw [drop.still (none.recached recached)]
    exact recached
  | noParent walk other allocated second drop =>
    have first := (walk.eq_walk none).2
    exact back first allocated (second.eq_walk ((none.recached first).change _ _)).2 drop
  | taken walk other allocated second dir lookup dropFound dropParent drop =>
    rename_i w1 w2 w3 w4 w5 I P J k name last
    have first := (walk.eq_walk none).2
    have counted := (none.recached first).change I .link
    have more := (second.eq_walk counted).2.trans lookup.recached
    obtain rfl := dropFound.still ((counted.recached more).with _)
    obtain rfl := dropParent.still (counted.recached more)
    exact back first allocated more drop
  | linked => cases failed

theorem Unlinks.failed {r : Int} (unlinks : Unlinks used w X names w' r) (none : NoOrphans used w)
    (failed : r = -1) : Recached w w' := by
  cases unlinks with
  | lost walk => exact (walk.eq_walk none).2
  | dots walk _ drop | missing walk drop =>
    have recached := (walk.eq_walk none).2
    rw [drop.still (none.recached recached)]
    exact recached
  | notEmpty walk dir other lookup dropFound drop =>
    have recached := (walk.eq_walk none).2.trans lookup.recached
    obtain rfl := dropFound.still ((none.recached recached).with _)
    rw [drop.still (none.recached recached)]
    exact recached
  | removed => cases failed

theorem Visits.failed {act : World → Nat → World → Int → Prop} {r : Int}
    (visits : Visits used act w X names w' r) (none : NoOrphans used w)
    (refused : ∀ w1 I w2, act w1 I w2 (-1) → w2 = w1) (failed : r = -1) : Recached w w' := by
  cases visits with
  | lost walk => exact (walk.eq_walk none).2
  | acts walk acted drop =>
    have recached := (walk.eq_walk none).2
    rw [failed] at acted
    obtain rfl := refused _ _ _ acted
    rw [drop.still (none.recached recached)]
    exact recached

end Calls

section Failure

/-- The directories, the inodes and their content are the same. -/
structure SameDisk (s s' : State) : Prop where
  inodes : s'.world.inode = s.world.inode
  entries : s'.world.entries = s.world.entries
  data : s'.world.data = s.world.data

/-- The calls on names. -/
def Call.naming : Call → Bool
  | .sysOpen _ _ | .sysMkdir _ | .sysMknod _ _ _ | .sysLink _ _ | .sysUnlink _ | .sysChmod _ _
      | .sysChown _ _ => true
  | _ => false

/-- `sys_open` makes a file and has no open file or no descriptor for it. -/
def MakesUnopened (s : State) (p : Fin NPROC) : Call → Prop
  | .sysOpen path omode => hasBits omode O_CREATE = true ∧ ¬ Room s p ∧
      ∃ t, s.world.target (s.outside.start p path) (elements path) = some t ∧
        (t.world.lookup t.dir t.name).2 = none
  | _ => False

variable {s s' : State} {p : Fin NPROC}

theorem SameDisk.of_recached (recached : Recached s.world s'.world) : SameDisk s s' := by
  obtain ⟨cache, same⟩ := recached
  rw [World.mk.injEq] at same
  exact ⟨same.1, same.2.1, same.2.2.1⟩

theorem open_failed_iff {path : List UInt8} {omode : Int} {refuses : Dinode → Prop}
    (none : NoOrphans s.outside.Used s.world)
    (opens : Opens s.outside.Used (hasBits omode O_CREATE = true) (Room s p) refuses
      (s.outside.fresh p .file) s.world (s.outside.start p path) (elements path) s'.world (-1)) :
    SameDisk s s' ↔ ¬ MakesUnopened s p (.sysOpen path omode) := by
  have unchanged : Recached s.world s'.world → ¬ MakesUnopened s p (.sysOpen path omode) →
      (SameDisk s s' ↔ ¬ MakesUnopened s p (.sysOpen path omode)) :=
    fun recached other => iff_of_true (SameDisk.of_recached recached) other
  cases opens with
  | failed opened =>
    cases opened with
    | created asked creates =>
      rcases creates.sorted none with ⟨recached, there⟩ | ⟨_, _, some, _⟩
      · exact unchanged recached fun bad => there bad.2.2
      · cases some
    | lost plain walk => exact unchanged (walk.eq_walk none).2 fun bad => plain bad.1
    | refused plain walk _ drop =>
      have recached := (walk.eq_walk none).2
      rw [← drop.still (none.recached recached)] at recached
      exact unchanged recached fun bad => plain bad.1
  | full opened full drop =>
    cases opened with
    | created asked creates =>
      rcases creates.sorted none with ⟨recached, there⟩ | ⟨missing, I, some, free, type, linked⟩
      · rw [← drop.still (none.recached recached)] at recached
        exact unchanged recached fun bad => there bad.2.2
      · cases some
        refine iff_of_false (fun same => ?_) fun other => other ⟨asked, full, missing⟩
        rw [← drop.linked linked, World.type, same.inodes] at type
        rw [World.type, type] at free
        cases free
    | found plain walk _ =>
      have recached := (walk.eq_walk none).2
      rw [← drop.still (none.recached recached)] at recached
      exact unchanged recached fun bad => plain bad.1
  | done _ _ descriptor => exact absurd descriptor (by decide)

variable {im : Mkfs.Image} {files : List Mkfs.Source} {devsw : Int → Option Device}
  {calls : List (Fin NPROC × Call)} {call : Call}

/-- In any run on an image of mkfs, a call on names that returns -1 leaves the disk as it is
exactly if it is not `sys_open` that makes a file and cannot open it. -/
theorem failed_call_unchanged_iff (made : Mkfs.mkfs files = some im)
    (few : files.length < NINODES - 1) (room : im.freeblock ≤ FSSIZE)
    (reached : runSystem im devsw calls = some s) (naming : call.naming = true)
    (failed : callStep s (p, call) = .ok (-1, s')) : SameDisk s s' ↔ ¬ MakesUnopened s p call := by
  have image := Mkfs.mkfs_made made few room
  obtain ⟨base, short⟩ := stable_shortLinks.run image (shortLinks_boot image) reached
  have none := base.noOrphans
  have does := (callStep_base base failed).2
  have unchanged : Recached s.world s'.world → (SameDisk s s' ↔ ¬ False) :=
    fun recached => iff_of_true (SameDisk.of_recached recached) not_false
  cases call with
  | sysOpen path omode => exact open_failed_iff none does
  | sysMkdir path =>
    refine unchanged ?_
    cases (does : Makes _ _ _ _ _ _ (-1)) with
    | failed creates =>
      rcases creates.sorted none with ⟨recached, _⟩ | ⟨_, _, some, _⟩
      · exact recached
      · cases some
  | sysMknod path major minor =>
    refine unchanged ?_
    cases (does : Makes _ _ _ _ _ _ (-1)) with
    | failed creates =>
      rcases creates.sorted none with ⟨recached, _⟩ | ⟨_, _, some, _⟩
      · exact recached
      · cases some
  | sysLink old new => exact unchanged (Links.failed does none short rfl)
  | sysUnlink path => exact unchanged (Unlinks.failed does none rfl)
  | sysChmod path mode =>
    refine unchanged (Visits.failed does none ?_ rfl)
    rintro w1 I w2 (⟨same, _⟩ | ⟨_, zero, _⟩)
    · exact same
    · cases zero
  | sysChown path uid =>
    refine unchanged ?_
    rcases does with ⟨same, _⟩ | ⟨_, visits⟩
    · rw [same]
      exact Recached.refl _
    · refine visits.failed none ?_ rfl
      rintro w1 I w2 ⟨_, zero⟩
      cases zero
  | _ => cases naming

/-- The process has all its descriptors in use. -/
def fillDescriptors : List (Fin NPROC × Call) :=
  (0, .sysOpen [47, 97] 0x202) :: List.replicate 15 (0, .sysDup 0)

/-- To unlink a name that is not there changes nothing. -/
theorem failed_call_unchanged_iff_unlink : ∃ im s s', Mkfs.mkfs [] = some im ∧
    runSystem im (fun _ => none) fillDescriptors = some s ∧
    callStep s (0, .sysUnlink [47, 98]) = .ok (-1, s') ∧ SameDisk s s' := by
  obtain ⟨im, made, room, s, ran, called⟩ : Mkfs.Yields [] fun im =>
      ∃ s ∈ runSystem im (fun _ => none) fillDescriptors,
        (callStep s (0, .sysUnlink [47, 98])).toOption.map Prod.fst = some (-1) := by decide +kernel
  obtain ⟨⟨r, s'⟩, called, failed⟩ := Option.map_eq_some_iff.mp called
  obtain rfl : r = -1 := failed
  rw [Outcome.toOption_eq_some] at called
  exact ⟨im, s, s', made, ran, called,
    (failed_call_unchanged_iff made (by decide) room ran rfl called).mpr not_false⟩

/-- `sys_open` with `O_CREATE` returns -1 and leaves a new file behind. -/
theorem failed_open_changes_disk : ∃ im s s', Mkfs.mkfs [] = some im ∧
    runSystem im (fun _ => none) fillDescriptors = some s ∧
    callStep s (0, .sysOpen [47, 98] 0x202) = .ok (-1, s') ∧ ¬ SameDisk s s' := by
  obtain ⟨im, made, -, s, ran, before, called⟩ : Mkfs.Yields [] fun im =>
      ∃ s ∈ runSystem im (fun _ => none) fillDescriptors, (s.dinodes 3).type = .free ∧
        (callStep s (0, .sysOpen [47, 98] 0x202)).toOption.map
          (fun result => (result.1, (result.2.dinodes 3).type)) = some (-1, .file) := by
        decide +kernel
  obtain ⟨⟨r, s'⟩, called, facts⟩ := Option.map_eq_some_iff.mp called
  obtain ⟨rfl, after⟩ := Prod.mk.inj facts
  rw [Outcome.toOption_eq_some] at called
  refine ⟨im, s, s', made, ran, called, fun same => ?_⟩
  have inode : s'.dinodes 3 = s.dinodes 3 := congrFun same.inodes 3
  rw [inode, before] at after
  cases after

end Failure

end Xv6.Fs
