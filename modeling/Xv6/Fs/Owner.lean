import Xv6.Fs.Effect

/- Owner, group and mode of an inode: every call leaves them as they are, but `sys_chmod`,
`sys_chown` and the call that makes the inode. -/
namespace Xv6.Fs

/-- The fields that say who may do what. -/
def Dinode.rights (din : Dinode) : Nat × Nat × Nat := (din.uid, din.gid, din.mode)

/-- Every inode has the same owner, group and mode, and none is new. -/
structure SameRights (w w' : World) : Prop where
  rights : ∀ j, (w'.inode j).rights = (w.inode j).rights
  kinds : ∀ j, w'.type j = w.type j ∨ w'.type j = .free

section Steps

variable {used : Nat → Prop} {dirs : List Nat} {w w1 w' : World} {P X I k : Nat} {name : List UInt8}

theorem SameRights.refl (w : World) : SameRights w w := ⟨fun _ => rfl, fun _ => Or.inl rfl⟩

theorem SameRights.trans (first : SameRights w w1) (second : SameRights w1 w') :
    SameRights w w' := by
  refine ⟨fun j => (second.rights j).trans (first.rights j), fun j => ?_⟩
  rcases second.kinds j with same | free
  · rw [same]
    exact first.kinds j
  · exact Or.inr free

/-- An inode in use was so before, with the same type. -/
theorem SameRights.type (same : SameRights w w') {j : Nat} (allocated : w'.type j ≠ .free) :
    w'.type j = w.type j :=
  (same.kinds j).resolve_right allocated

/-- Inode `X` is replaced by one with the same rights. -/
theorem sameRights_update {din : Dinode} (inode : w'.inode = Function.update w.inode X din)
    (same : din.rights = (w.inode X).rights) (type : din.type = w.type X ∨ din.type = .free) :
    SameRights w w' := by
  refine ⟨fun j => ?_, fun j => ?_⟩
  · rw [inode, Function.update_apply]
    grind
  · rw [World.type, inode, Function.update_apply]
    split
    · grind
    · exact Or.inl rfl

theorem sameRights_change (w : World) (I : Nat) {c : Change}
    (same : ∀ din, (c.apply din).rights = din.rights) :
    SameRights w (w.change I c) :=
  sameRights_update rfl (same _) (Or.inl (by cases c <;> rfl))

theorem Filled.sameRights (fills : Filled dirs w w') : SameRights w w' := by
  obtain ⟨_, rfl⟩ := fills.recached
  exact ⟨fun _ => rfl, fun _ => Or.inl rfl⟩

theorem Drop.sameRights (drop : Drop used w X w') : SameRights w w' := by
  rcases drop with rfl | ⟨_, _, _, _, rfl⟩
  · exact SameRights.refl w'
  · exact sameRights_update rfl rfl (Or.inr rfl)

theorem Drops.sameRights (drops : Drops w w') : SameRights w w' := by
  induction drops with
  | refl w => exact SameRights.refl w
  | step drop _ ih => exact drop.sameRights.trans ih

theorem Linked.sameRights (linked : Linked w P name I w') : SameRights w w' := by
  obtain ⟨size, addrs, rfl⟩ := linked.eq
  exact sameRights_update rfl rfl (Or.inl rfl)

theorem Writes.sameRights (writes : Writes w w') : SameRights w w' := by
  induction writes with
  | refl => exact SameRights.refl w
  | step _ _ wrote ih =>
    rw [wrote]
    exact ih.trans (sameRights_update rfl rfl (Or.inl rfl))

theorem Removes.sameRights (removes : Removes used w P k I w') : SameRights w w' := by
  obtain ⟨size, addrs, w1, w2, cleared, dropParent, drop⟩ := removes.steps
  have first : SameRights w w1 := by
    rw [cleared]
    split
    · have emptied : SameRights w ((((w.invalidate I).invalidate P).put P k Dirent.zero).resize P
        size addrs) :=
        sameRights_update rfl rfl (Or.inl rfl)
      exact emptied.trans (sameRights_change _ P fun _ => rfl)
    · exact sameRights_update rfl rfl (Or.inl rfl)
  exact first.trans (dropParent.sameRights.trans
    ((sameRights_change w2 I fun _ => rfl).trans drop.sameRights))

/-- The inode that `create` makes has the rights that `ialloc` gave it. -/
theorem Begins.rights {new : Dinode} (begins : Begins new w P X w') (apart : X ≠ P) (j : Nat) :
    (w'.inode j).rights = if j = X then new.rights else (w.inode j).rights := by
  obtain ⟨din, fresh, begins⟩ := begins
  have same : din.rights = new.rights := by
    rw [Dinode.rights, Dinode.rights, fresh.uid, fresh.gid, fresh.mode]
  have reset : ((w.reset X din).inode j).rights =
    if j = X then new.rights else (w.inode j).rights := by
    by_cases here : j = X
    · subst here
      rw [if_pos rfl, ← same]
      exact congrArg Dinode.rights (Function.update_self _ _ _)
    · rw [if_neg here]
      exact congrArg Dinode.rights (Function.update_of_ne here _ _)
  split at begins
  · obtain ⟨w1, dot, dotdot⟩ := begins
    rw [dotdot.sameRights.rights, dot.sameRights.rights,
      (sameRights_change _ P fun _ => rfl).rights, reset]
  · rw [begins, reset]

end Steps

variable {im : Mkfs.Image} {files : List Mkfs.Source} {devsw : Int → Option Device}
  {calls : List (Fin NPROC × Call)} {s s' : State} {p : Fin NPROC} {call : Call} {r : Int}

/-- Owner, group and mode of an inode in use, over one call. -/
structure RightsKept (s s' : State) (p : Fin NPROC) (call : Call) (j : Nat) : Prop where
  gid : (s'.dinodes j).gid = (s.dinodes j).gid
  uid : (s'.dinodes j).uid = (s.dinodes j).uid ∨
    (∃ path uid, call = .sysChown path uid) ∧ (s.procs p).uid = 0
  mode : (s'.dinodes j).mode = (s.dinodes j).mode ∨
    (∃ path mode, call = .sysChmod path mode) ∧
      ((s.procs p).uid = 0 ∨ (s.procs p).uid = (s.dinodes j).uid)

theorem rightsKept_of_eq {j : Nat} (same : (s'.dinodes j).rights = (s.dinodes j).rights) :
    RightsKept s s' p call j := by
  simp only [Dinode.rights, Prod.mk.injEq] at same
  exact ⟨same.2.1, Or.inl same.1, Or.inl same.2.2⟩

/-- What a call does to the rights of the inodes in use, and which ones it gives to a new one. -/
theorem Effect.rights (effect : Effect s p call s'.world r) (j : Nat) :
    ((s.dinodes j).type ≠ .free → RightsKept s s' p call j) ∧
    ((s.dinodes j).type = .free → (s'.dinodes j).type ≠ .free →
      ∃ type, (s'.dinodes j).rights = (newDinode type (s.procs p).uid (s.procs p).gid).rights) := by
  have stays : SameRights s.world s'.world →
    ((s.dinodes j).type ≠ .free → RightsKept s s' p call j) ∧
      ((s.dinodes j).type = .free → (s'.dinodes j).type ≠ .free →
        ∃ type, (s'.dinodes j).rights = (newDinode type (s.procs p).uid (s.procs p).gid).rights) :=
    fun same => ⟨fun _ => rightsKept_of_eq (same.rights j), fun free new =>
      (new ((same.type new).trans free)).elim⟩
  cases effect with
  | looked fills => exact stays fills.sameRights
  | made aim reach kind makes fills dir lookup vacant begins links drop =>
    rename_i w1 w2 w3 type P X name
    have free := (vacant_spec vacant).2.2
    have apart : X ≠ P := by grind
    have after := begins.rights apart j
    have same : (s'.world.inode j).rights = (w2.inode j).rights :=
      (links.sameRights.trans drop.sameRights).rights j
    have types : s'.world.type j ≠ .free → w2.type j ≠ .free :=
      fun new free => new (((links.sameRights.trans drop.sameRights).type new).trans free)
    obtain ⟨cache, rfl⟩ := fills.recached
    by_cases here : j = X
    · rw [if_pos here] at after
      exact ⟨fun allocated => (allocated (here ▸ free)).elim, fun _ _ => ⟨type, same.trans after⟩⟩
    · rw [if_neg here] at after
      refine ⟨fun _ => rightsKept_of_eq (same.trans after), fun old new => (types new ?_).elim⟩
      rw [begins.type, if_neg here]
      exact old
  | linked _ _ _ _ fills _ _ more links drop =>
    exact stays (fills.sameRights.trans ((sameRights_change _ _ fun _ => rfl).trans
      (more.sameRights.trans (links.sameRights.trans drop.sameRights))))
  | undone fills _ _ more drop =>
    exact stays (fills.sameRights.trans ((sameRights_change _ _ fun _ => rfl).trans
      (more.sameRights.trans ((sameRights_change _ _ fun _ => rfl).trans drop.sameRights))))
  | removed _ _ _ fills dir _ lookup removes =>
    have found := (@Lookup.filled [_] _ _ _ _ _ lookup dir fun _ => List.mem_cons_self).sameRights
    exact stays (fills.sameRights.trans (found.trans removes.sameRights))
  | dropped fills drops => exact stays (fills.sameRights.trans drops.sameRights)
  | wrote writes => exact stays writes.sameRights
  | chmod isChmod allowed fills eq =>
    rename_i w1 I path mode
    obtain ⟨cache, rfl⟩ := fills.recached
    have inode : s'.dinodes = Function.update s.dinodes I
      ((Change.chmod mode).apply (s.dinodes I)) :=
      congrArg World.inode eq
    rw [inode]
    by_cases here : j = I
    · subst here
      rw [Function.update_self]
      refine ⟨fun _ => ⟨?_, Or.inl ?_, Or.inr ⟨⟨path, mode, isChmod⟩, allowed⟩⟩, fun old new =>
        (new old).elim⟩
      · rw [inode, Function.update_self]
        rfl
      · rw [inode, Function.update_self]
        rfl
    · rw [Function.update_of_ne here]
      refine ⟨fun _ => rightsKept_of_eq ?_, fun old new => (new old).elim⟩
      rw [inode, Function.update_of_ne here]
  | chown isChown allowed fills eq =>
    rename_i w1 I path uid
    obtain ⟨cache, rfl⟩ := fills.recached
    have inode : s'.dinodes = Function.update s.dinodes I
      ((Change.chown uid).apply (s.dinodes I)) :=
      congrArg World.inode eq
    rw [inode]
    by_cases here : j = I
    · subst here
      rw [Function.update_self]
      refine ⟨fun _ => ⟨?_, Or.inr ⟨⟨path, uid, isChown⟩, allowed⟩, Or.inl ?_⟩, fun old new =>
        (new old).elim⟩
      · rw [inode, Function.update_self]
        rfl
      · rw [inode, Function.update_self]
        rfl
    · rw [Function.update_of_ne here]
      refine ⟨fun _ => rightsKept_of_eq ?_, fun old new => (new old).elim⟩
      rw [inode, Function.update_of_ne here]

/-- In any run on an image of mkfs a call leaves owner, group and mode of each inode in use
as they are, unless it is `sys_chown` of the superuser or `sys_chmod` of the superuser or
the owner. An inode that the call makes has the rights that `ialloc` gives it. -/
theorem rights_kept (made : Mkfs.mkfs files = some im) (few : files.length < NINODES - 1)
    (room : im.freeblock ≤ FSSIZE) (reached : runSystem im devsw calls = some s)
    (taken : callStep s (p, call) = .ok (r, s')) (j : Nat) :
    ((s.dinodes j).type ≠ .free → RightsKept s s' p call j) ∧
    ((s.dinodes j).type = .free → (s'.dinodes j).type ≠ .free →
      ∃ type, (s'.dinodes j).rights = (newDinode type (s.procs p).uid (s.procs p).gid).rights) := by
  have base := run_system_base (Mkfs.mkfs_made made few room) reached
  exact (callStep_effect base taken).rights j

/-- The superuser makes a file, gives it to user 5 and goes on as that user. -/
def giveAway : List (Fin NPROC × Call) :=
  [(0, .sysOpen [47, 97] 0x202), (0, .sysChown [47, 97] 5), (0, .setCreds 5 5)]

theorem rights_kept_giveAway : ∃ im s s', Mkfs.mkfs [] = some im ∧
    runSystem im (fun _ => none) giveAway = some s ∧
    callStep s (0, .sysChmod [47, 97] 0o600) = .ok (0, s') ∧ (s.dinodes 2).uid = 5 ∧
    (s.dinodes 2).mode ≠ (s'.dinodes 2).mode ∧ RightsKept s s' 0 (.sysChmod [47, 97] 0o600) 2 := by
  obtain ⟨im, made, room, s, ran, type, uid, before, called⟩ : Mkfs.Yields [] fun im =>
      ∃ s ∈ runSystem im (fun _ => none) giveAway, (s.dinodes 2).type = .file ∧
        (s.dinodes 2).uid = 5 ∧
        (s.dinodes 2).mode = 0o644 ∧ (callStep s (0, .sysChmod [47, 97] 0o600)).toOption.map
          (fun result => (result.1, (result.2.dinodes 2).mode)) = some (0, 0o600) := by
          decide +kernel
  obtain ⟨⟨r, s'⟩, called, facts⟩ := Option.map_eq_some_iff.mp called
  obtain ⟨rfl, after⟩ := Prod.mk.inj facts
  rw [Outcome.toOption_eq_some] at called
  refine ⟨im, s, s', made, ran, called, uid, ?_,
    (rights_kept made (by decide) room ran called 2).1 ?_⟩
  · rw [before, after]
    decide
  · rw [type]
    decide

end Xv6.Fs
