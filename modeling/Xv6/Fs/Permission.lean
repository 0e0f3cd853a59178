import Xv6.Fs.Readable

/- The rules of perm.h, which nothing uses, and the checks that `sys_open` makes; and whom
the owner test of an inode lets pass, given that the inode has 16 bits for the user. -/
namespace Xv6.Fs

open Exec

def S_IRUSR : Nat := 0o400
def S_IWUSR : Nat := 0o200
def S_IRGRP : Nat := 0o040
def S_IWGRP : Nat := 0o020

def canRead (mode : Nat) (uid gid : Int) (fUid fGid : Nat) : Bool :=
  uid == 0 || (uid == fUid && mode &&& S_IRUSR != 0) || (gid == fGid && mode &&& S_IRGRP != 0) ||
    mode &&& S_IROTH != 0

def canWrite (mode : Nat) (uid gid : Int) (fUid fGid : Nat) : Bool :=
  uid == 0 || (uid == fUid && mode &&& S_IWUSR != 0) || (gid == fGid && mode &&& S_IWGRP != 0) ||
    mode &&& S_IWOTH != 0

section Rules

/-- `read` and `write`, as far as the open mode needs them. -/
def Needs (omode : Int) (read write : Prop) : Prop :=
  ((omode = O_RDONLY ∨ omode = O_RDWR) → read) ∧ ((omode = O_WRONLY ∨ omode = O_RDWR) → write)

instance (omode : Int) (read write : Prop) [Decidable read] [Decidable write] :
    Decidable (Needs omode read write) := inferInstanceAs (Decidable (_ ∧ _))

/-- What perm.h says of an open mode. -/
def Declared (omode uid gid : Int) (din : Dinode) : Prop :=
  Needs omode (canRead din.mode uid gid din.uid din.gid = true)
    (canWrite din.mode uid gid din.uid din.gid = true)

/-- The bits of the group and of the others, for a process of the given group. -/
def GroupOrOthers (omode gid : Int) (din : Dinode) : Prop :=
  Needs omode ((gid = din.gid ∧ din.mode &&& S_IRGRP ≠ 0) ∨ din.mode &&& S_IROTH ≠ 0)
    ((gid = din.gid ∧ din.mode &&& S_IWGRP ≠ 0) ∨ din.mode &&& S_IWOTH ≠ 0)

/-- The superuser; or the owner, with some bit for each access that is needed; or another
user, to whom the bits of the others give all or those of the group would not give the rest. -/
def Settled (omode uid gid : Int) (din : Dinode) : Prop :=
  uid = 0 ∨
  (uid = din.uid ∧
    Needs omode
      (din.mode &&& S_IRUSR ≠ 0 ∨ (gid = din.gid ∧ din.mode &&& S_IRGRP ≠ 0) ∨
      din.mode &&& S_IROTH ≠ 0)
      (din.mode &&& S_IWUSR ≠ 0 ∨ (gid = din.gid ∧ din.mode &&& S_IWGRP ≠ 0) ∨
      din.mode &&& S_IWOTH ≠ 0)) ∨
  (uid ≠ din.uid ∧
    (Needs omode (din.mode &&& S_IROTH ≠ 0) (din.mode &&& S_IWOTH ≠ 0) ∨
    ¬ GroupOrOthers omode gid din))

variable {omode uid gid : Int} {din : Dinode}

theorem canRead_iff : canRead din.mode uid gid din.uid din.gid = true ↔
    uid = 0 ∨ (uid = din.uid ∧ din.mode &&& S_IRUSR ≠ 0) ∨
      (gid = din.gid ∧ din.mode &&& S_IRGRP ≠ 0) ∨ din.mode &&& S_IROTH ≠ 0 := by
  simp only [canRead, Bool.or_eq_true, Bool.and_eq_true, beq_iff_eq, bne_iff_ne, or_assoc]

theorem canWrite_iff : canWrite din.mode uid gid din.uid din.gid = true ↔
    uid = 0 ∨ (uid = din.uid ∧ din.mode &&& S_IWUSR ≠ 0) ∨
      (gid = din.gid ∧ din.mode &&& S_IWGRP ≠ 0) ∨ din.mode &&& S_IWOTH ≠ 0 := by
  simp only [canWrite, Bool.or_eq_true, Bool.and_eq_true, beq_iff_eq, bne_iff_ne, or_assoc]

/-- What `sys_open` checks on an inode that is no directory. -/
theorem refuses_iff (other : din.type ≠ .dir) : ¬ Refuses omode uid din ↔
    uid = 0 ∨ uid = din.uid ∨ Needs omode (din.mode &&& S_IROTH ≠ 0)
      (din.mode &&& S_IWOTH ≠ 0) := by
  unfold Refuses Needs
  tauto

theorem Needs.mono {read write read' write' : Prop} (reads : read → read') (writes : write → write')
    (needs : Needs omode read write) : Needs omode read' write' :=
  ⟨fun asked => reads (needs.1 asked), fun asked => writes (needs.2 asked)⟩

/-- The checks and the rules agree exactly where `Settled` holds. -/
theorem refuses_iff_declared (other : din.type ≠ .dir) :
    (¬ Refuses omode uid din ↔ Declared omode uid gid din) ↔ Settled omode uid gid din := by
  rw [refuses_iff other]
  unfold Declared Settled
  rw [canRead_iff, canWrite_iff]
  by_cases root : uid = 0
  · simp only [root, true_or, Needs, implies_true, and_self]
  · by_cases owner : uid = din.uid
    · have zero : ¬ (din.uid : Int) = 0 := owner ▸ root
      simp only [owner, zero, false_or, true_or, true_iff, true_and, ne_eq, not_true_eq_false,
        false_and, or_false]
    · simp only [root, owner, false_or, false_and, ne_eq, not_false_eq_true, true_and]
      have weaker : Needs omode (din.mode &&& S_IROTH ≠ 0) (din.mode &&& S_IWOTH ≠ 0) →
          GroupOrOthers omode gid din := Needs.mono Or.inr Or.inr
      constructor
      · intro agree
        by_cases others : Needs omode (din.mode &&& S_IROTH ≠ 0) (din.mode &&& S_IWOTH ≠ 0)
        · exact Or.inl others
        · exact Or.inr fun group => others (agree.mpr group)
      · rintro (others | neither)
        · exact iff_of_true others (weaker others)
        · exact iff_of_false (fun others => neither (weaker others)) neither

end Rules

section Open

instance (omode uid gid : Int) (din : Dinode) : Decidable (Declared omode uid gid din) :=
  inferInstanceAs (Decidable (Needs _ _ _))

instance (omode gid : Int) (din : Dinode) : Decidable (GroupOrOthers omode gid din) :=
  inferInstanceAs (Decidable (Needs _ _ _))

instance (omode uid gid : Int) (din : Dinode) : Decidable (Settled omode uid gid din) :=
  inferInstanceAs (Decidable (_ ∨ (_ ∧ _) ∨ (_ ∧ (_ ∨ _))))

variable {s : State} {p : Fin NPROC} {omode : Int} {path name : List UInt8} {I : Nat}

/-- `sys_open` of an existing inode that is no directory, with a free open file and
descriptor: it returns if the inode cache has two slots, and wherever it returns it succeeds
on what perm.h allows exactly if the bits and users are as in `Settled`. -/
theorem open_agrees_iff (base : Base s) (access : omode ∈ [O_RDONLY, O_WRONLY, O_RDWR])
    (running : (s.procs p).cwd ≠ none) (descriptor : Room s p)
    (there : (s.world.walk false (s.outside.start p path) (elements path)).2 = some (I, name))
    (allocated : (s.dinodes I).type ≠ .free) (other : (s.dinodes I).type ≠ .dir) :
    (slotsInUse s + 2 ≤ NINODE → ∃ r s', callStep s (p, .sysOpen path omode) = .ok (r, s')) ∧
    ∀ r s', callStep s (p, .sysOpen path omode) = .ok (r, s') →
      ((0 ≤ r ↔ Declared omode (s.procs p).uid (s.procs p).gid (s.dinodes I)) ↔
        Settled omode (s.procs p).uid (s.procs p).gid (s.dinodes I)) := by
  have plain : ¬ hasBits omode O_CREATE = true := by
    simp only [List.mem_cons, List.not_mem_nil, or_false] at access
    rcases access with rfl | rfl | rfl <;> decide
  refine ⟨fun slots => open_returns base plain running slots there allocated, fun r s' taken => ?_⟩
  have opens := (callStep_base base taken).2
  rw [Opens.granted_iff base.noOrphans plain descriptor there opens]
  exact refuses_iff_declared other

theorem open_agrees_iff_madeByKernel : ∃ im s s' r, Mkfs.mkfs [] = some im ∧
    runSystem im (fun _ => none) madeByKernel = some s ∧
    callStep s (0, .sysOpen [47, 97] O_RDONLY) = .ok (r, s') ∧ 0 ≤ r ∧
    Declared O_RDONLY (s.procs 0).uid (s.procs 0).gid (s.dinodes 2) := by
  obtain ⟨im, made, room, s, ran, running, descriptor, slots, there, file, settled, declared⟩ :
      Mkfs.Yields [] fun im => ∃ s ∈ runSystem im (fun _ => none) madeByKernel,
        (s.procs 0).cwd ≠ none ∧ Room s 0 ∧ slotsInUse s + 2 ≤ NINODE ∧
        (s.world.walk false (s.outside.start 0 [47, 97]) (elements [47, 97])).2 = some (2, []) ∧
        (s.dinodes 2).type = .file ∧
        Settled O_RDONLY (s.procs 0).uid (s.procs 0).gid (s.dinodes 2) ∧
        Declared O_RDONLY (s.procs 0).uid (s.procs 0).gid (s.dinodes 2) := by decide +kernel
  have base := run_system_base (Mkfs.mkfs_made made (by decide) room) ran
  have allocated : (s.dinodes 2).type ≠ .free := by simp [file]
  have other : (s.dinodes 2).type ≠ .dir := by simp [file]
  obtain ⟨returns, agrees⟩ := open_agrees_iff base List.mem_cons_self running descriptor there
    allocated other
  obtain ⟨r, s', taken⟩ := returns slots
  exact ⟨im, s, s', r, made, ran, taken, ((agrees r s' taken).mpr settled).mpr declared, declared⟩

/-- The superuser takes all bits of a file away and gives it to user 5, who can open it. -/
theorem owner_without_bits : ∃ im s s' r, Mkfs.mkfs [] = some im ∧ im.freeblock ≤ FSSIZE ∧
    runSystem im (fun _ => none) [(0, .sysOpen [47, 97] 0x202), (0, .sysChmod [47, 97] 0),
      (0, .sysChown [47, 97] 5), (0, .setCreds 5 5)] = some s ∧
    (s.world.walk false (s.outside.start 0 [47, 97]) (elements [47, 97])).2 = some (2, []) ∧
    (s.dinodes 2).type = .file ∧ (s.dinodes 2).mode = 0 ∧
    callStep s (0, .sysOpen [47, 97] O_RDONLY) = .ok (r, s') ∧
    ¬ (0 ≤ r ↔ Declared O_RDONLY (s.procs 0).uid (s.procs 0).gid (s.dinodes 2)) := by
  obtain ⟨im, made, room, s, ran, there, file, mode, denied, called⟩ : Mkfs.Yields [] fun im =>
      ∃ s ∈ runSystem im (fun _ => none) [(0, .sysOpen [47, 97] 0x202), (0, .sysChmod [47, 97] 0),
          (0, .sysChown [47, 97] 5), (0, .setCreds 5 5)],
        (s.world.walk false (s.outside.start 0 [47, 97]) (elements [47, 97])).2 = some (2, []) ∧
        (s.dinodes 2).type = .file ∧ (s.dinodes 2).mode = 0 ∧
        ¬ Declared O_RDONLY (s.procs 0).uid (s.procs 0).gid (s.dinodes 2) ∧
        (callStep s (0, .sysOpen [47, 97] O_RDONLY)).toOption.map Prod.fst = some 1 := by
        decide +kernel
  obtain ⟨⟨r, s'⟩, called, first⟩ := Option.map_eq_some_iff.mp called
  rw [Outcome.toOption_eq_some] at called
  refine ⟨im, s, s', r, made, room, ran, there, file, mode, called, fun agree =>
    denied (agree.mp ?_)⟩
  rw [show r = 1 from first]
  decide

end Open

section Owners

/-- The owner test of `sys_open` and `sys_chmod`. -/
def ownerTest (uid : Int) (din : Dinode) : Bool := uid == din.uid

/-- The owner test lets exactly the processes of user `u` pass, on the inode as it is on disk
and in the inode cache. -/
structure OwnedBy (s : State) (j : Nat) (u : Int) : Prop where
  disk : ∀ v, ownerTest v (s.dinodes j) = true ↔ v = u
  cached : ∀ i, 0 < (s.icache i).ref → (s.icache i).valid = true → (s.icache i).inum = j →
    ∀ v, ownerTest v (s.icache i).din = true ↔ v = u

theorem toUshort_eq_iff (u : Int) : ((toUshort u : Nat) : Int) = u ↔ 0 ≤ u ∧ u < 65536 := by
  unfold toUshort
  omega

variable {s s' : State} {p : Fin NPROC} {call : Call} {r : Int}

/-- An inode to which the code gave user `u` is owned by that user if 16 bits hold it. -/
theorem ownedBy_iff {j : Nat} {u : Int} (base : Base s) (uid : (s.dinodes j).uid = toUshort u) :
    OwnedBy s j u ↔ 0 ≤ u ∧ u < 65536 := by
  have tested : ∀ v, ownerTest v (s.dinodes j) = true ↔ v = (toUshort u : Nat) := by
    intro v
    rw [ownerTest, uid, beq_iff_eq]
  rw [← toUshort_eq_iff]
  constructor
  · intro owned
    exact (owned.disk _).mp ((tested _).mpr rfl)
  · intro fits
    rw [fits] at tested
    refine ⟨tested, fun i used valid same => ?_⟩
    have coherent := ((base.mid 0).sane.slots i).coherent used valid rfl
    rw [coherent, same]
    exact tested

theorem chown_uid (base : Base s) {path name : List UInt8} {u : Int} {I : Nat}
    (taken : callStep s (p, .sysChown path u) = .ok (0, s'))
    (there : (s.world.walk false (s.outside.start p path) (elements path)).2 = some (I, name)) :
    (s'.dinodes I).uid = toUshort u := by
  have none := base.noOrphans
  rcases (callStep_base base taken).2 with ⟨_, failed⟩ | ⟨_, visits⟩
  · cases failed
  · cases visits with
    | acts walk acted drop =>
      obtain ⟨same, cache, rfl⟩ := walk.eq_walk none
      rw [same] at there
      cases there
      rw [acted.1] at drop
      have rights := drop.sameRights.rights I
      have uid := congrArg Prod.fst rights
      refine uid.trans ?_
      change (Function.update s.dinodes I ((Change.chown u).apply (s.dinodes I)) I).uid = toUshort u
      rw [Function.update_self]
      rfl

/-- An inode that a call makes, and one that `sys_chown` changes, is owned by exactly the
processes of the user meant, if that user's number fits in 16 bits. -/
theorem owner_identified_iff (base : Base s) (taken : callStep s (p, call) = .ok (r, s')) :
    (∀ j, (s.dinodes j).type = .free → (s'.dinodes j).type ≠ .free →
      (OwnedBy s' j (s.procs p).uid ↔ 0 ≤ (s.procs p).uid ∧ (s.procs p).uid < 65536)) ∧
    ∀ path u I name, call = .sysChown path u → r = 0 →
      (s.world.walk false (s.outside.start p path) (elements path)).2 = some (I, name) →
      (OwnedBy s' I u ↔ 0 ≤ u ∧ u < 65536) := by
  have after := (callStep_base base taken).1
  constructor
  · intro j old new
    obtain ⟨type, rights⟩ := ((callStep_effect base taken).rights j).2 old new
    exact ownedBy_iff after (congrArg Prod.fst rights)
  · rintro path u I name rfl rfl there
    exact ownedBy_iff after (chown_uid base taken there)

/-- What becomes of inode 2 when process 0 goes on as user `uid` and makes a file. -/
def fileOf (uid : Int) : Option (State × State × Int) :=
  (Mkfs.mkfs []).bind fun im => if im.freeblock ≤ FSSIZE then
    (runSystem im (fun _ => none) [(0, .setCreds uid uid)]).bind fun s =>
      (callStep s (0, .sysOpen [47, 97] 0x202)).toOption.map fun result => (s, result.2, result.1)
  else none

theorem fileOf_eq_some {uid : Int} {s s' : State} {r : Int} (eq : fileOf uid = some (s, s', r)) :
    Base s ∧ callStep s (0, .sysOpen [47, 97] 0x202) = .ok (r, s') := by
  obtain ⟨im, made, ran⟩ := Option.bind_eq_some_iff.mp eq
  split at ran
  · rename_i room
    obtain ⟨before, reached, called⟩ := Option.bind_eq_some_iff.mp ran
    obtain ⟨result, returned, same⟩ := Option.map_eq_some_iff.mp called
    rw [Outcome.toOption_eq_some] at returned
    cases same
    exact ⟨run_system_base (Mkfs.mkfs_made made (by decide) room) reached, returned⟩
  · cases ran

theorem owner_identified_iff_fileOf :
    ∃ s s' r, fileOf 1000 = some (s, s', r) ∧ (s.procs 0).uid = 1000 ∧
    (s'.dinodes 2).type = .file ∧ OwnedBy s' 2 1000 := by
  have returns : ((fileOf 1000).map fun (s, s', _) =>
      ((s.procs 0).uid, (s.dinodes 2).type, (s'.dinodes 2).type)) = some (1000, .free, .file) := by
        decide +kernel
  obtain ⟨⟨s, s', r⟩, eq, facts⟩ := Option.map_eq_some_iff.mp returns
  simp only [Prod.mk.injEq] at facts
  obtain ⟨uid, old, new⟩ := facts
  obtain ⟨base, taken⟩ := fileOf_eq_some eq
  have owned := (owner_identified_iff base taken).1 2 old (by simp [new])
  rw [uid] at owned
  exact ⟨s, s', r, eq, uid, new, owned.mpr (by decide)⟩

/-- A file that user 65541 makes belongs to user 5. -/
theorem owner_truncated : ∃ s s' r, fileOf 65541 = some (s, s', r) ∧ (s.procs 0).uid = 65541 ∧
    (s.dinodes 2).type = .free ∧ (s'.dinodes 2).type = .file ∧
    ownerTest 65541 (s'.dinodes 2) = false ∧ ownerTest 5 (s'.dinodes 2) = true := by
  have returns : ((fileOf 65541).map fun (s, s', _) =>
      ((s.procs 0).uid, (s.dinodes 2).type, (s'.dinodes 2).type, (s'.dinodes 2).uid)) =
      some (65541, .free, .file, 5) := by decide +kernel
  obtain ⟨⟨s, s', r⟩, eq, facts⟩ := Option.map_eq_some_iff.mp returns
  simp only [Prod.mk.injEq] at facts
  obtain ⟨uid, old, new, owner⟩ := facts
  refine ⟨s, s', r, eq, uid, old, new, ?_, ?_⟩
  · rw [ownerTest, owner]
    decide
  · rw [ownerTest, owner]
    decide

end Owners

end Xv6.Fs
