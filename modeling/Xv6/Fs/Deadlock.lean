import Xv6.Fs.Effect

/- No process waits for the lock of an inode that it has locked itself, unless it links a
name that stands for the directory, or makes a directory whose old "." or ".." is cached. -/
namespace Xv6.Fs

open Exec hiding panic
open Namecache CString

section Straight

theorem dots_congr {name name' : List UInt8}
    (same : fieldString DIRSIZ name = fieldString DIRSIZ name') :
    Dots name ↔ Dots name' := by
  simp only [Dots, namecmp_eq_zero, same]

/-- In directory `D` the name stands for inode `I` of the table, which only "." and ".." do
for `D` itself. -/
def Apart (D : Nat) (name : List UInt8) (I : Nat) : Prop :=
  (I ≠ 0 ∧ I < NINODES) ∧ (¬ Dots name → I ≠ D)

structure Straight (w : World) : Prop where
  entries : ∀ D, ∀ de ∈ w.entries D, de.inum ≠ 0 → Apart D de.name de.inum
  cache : w.cache.All fun e => Apart e.parentInum e.name e.inum

variable {w w' : World} {P I k : Nat} {name : List UInt8}

theorem Straight.scan (straight : Straight w) (there : scan name (w.entries P) = some (k, I)) :
    Apart P name I := by
  obtain ⟨de, at_, ⟨used, same⟩, rfl, _⟩ := scan_eq_some.mp there
  have apart := straight.entries P de (List.mem_of_getElem? at_) used
  rwa [Apart, dots_congr same] at apart

/-- A name that may be put into the cache. -/
theorem Straight.add (straight : Straight w) (apart : Apart P name I) :
    (namecacheAdd w.cache ROOTDEV P name I).All fun e => Apart e.parentInum e.name e.inum := by
  refine straight.cache.add fun e hits inum => ?_
  obtain ⟨_, _, parent, same⟩ := (Entry.hits_iff e).mp hits
  rwa [inum, parent, Apart, dots_congr same]

/-- Nothing but the entries of `P` changed, by one that may stand there. -/
theorem Straight.put (straight : Straight w) (k : Nat) {de : Dirent}
    (apart : de.inum ≠ 0 → Apart P de.name de.inum) (D : Nat) :
    ∀ e ∈ (w.put P k de).entries D, e.inum ≠ 0 → Apart D e.name e.inum := by
  intro e member
  change e ∈ Function.update w.entries P (putEntry (w.entries P) k de) D at member
  by_cases here : D = P
  · subst here
    rw [Function.update_self] at member
    rcases mem_putEntry member with rfl | old
    · exact apart
    · exact straight.entries D e old
  · rw [Function.update_of_ne here] at member
    exact straight.entries D e member

theorem straight_reset (straight : Straight w) (X : Nat) (din : Dinode) :
    Straight (w.reset X din) := by
  refine ⟨fun D de member => ?_, straight.cache⟩
  change de ∈ Function.update w.entries X [] D at member
  grind [Function.update_self, Function.update_of_ne, Straight.entries]

theorem stable_straight : Stable Straight where
  fill straight _ there :=
    ⟨straight.entries, straight.add (straight.scan there)⟩
  free X addrs straight := straight_reset straight X _
  fresh X new din straight _ := straight_reset straight X din
  change X c straight := ⟨straight.entries, straight.cache⟩
  linked straight small fine linked := by
    obtain ⟨size, addrs, rfl⟩ := linked.eq
    have apart : Apart _ _ _ := ⟨small, fun other => fine.resolve_left other⟩
    refine ⟨straight.put _ fun _ => ⟨small, fun other => apart.2 fun dots => ?_⟩,
      straight.add apart⟩
    exact other ((dots_congr (fieldString_strncpy DIRSIZ _)).mpr dots)
  clear P k I size addrs straight _ := by
    refine ⟨straight.put _ fun used => (used rfl).elim, ?_⟩
    exact ((straight.cache.invalidate ROOTDEV I).invalidate ROOTDEV P).mono fun e _ good => good.1.1
  write bytes size addrs straight _ := ⟨straight.entries, straight.cache⟩

theorem straight_boot {im : Mkfs.Image} {files : List Mkfs.Source} {devsw : Int → Option Device}
    (made : Mkfs.Made im files) : Straight (im.boot devsw).world := by
  refine ⟨fun D de member used => ?_, all_namecacheInit _⟩
  by_cases root : D = ROOTINO
  · subst root
    obtain ⟨free, entries⟩ := @boot_root im files devsw made
    rw [entries, List.mem_append, List.mem_append] at member
    rcases member with (dots | file) | none
    · rcases List.mem_pair.mp dots with rfl | rfl
      · exact ⟨by decide, fun other => (other (by decide)).elim⟩
      · exact ⟨by decide, fun other => (other (by decide)).elim⟩
    · obtain ⟨later, before⟩ := Mkfs.mem_fileEntries file
      obtain ⟨positive, below⟩ := (made.sane devsw).numbered de.inum (by
        rw [show ((im.boot devsw).dinodes de.inum).type = .file from (made.files _ later before).1]
        exact Itype.noConfusion)
      exact ⟨⟨used, below⟩, fun _ => Nat.ne_of_gt later⟩
    · rw [List.eq_of_mem_replicate none] at used
      exact (used rfl).elim
  · rw [boot_entries made root] at member
    exact (List.not_mem_nil member).elim

/-- A name that is not cached is not either after one was cached for another directory. -/
theorem Straight.miss (straight : Straight w) {X J : Nat} {other : List UInt8} (apart : X ≠ P)
    (fine : Apart X other J) (miss : namecacheLookup w.cache ROOTDEV P name = 0) :
    namecacheLookup (w.fill X other J).cache ROOTDEV P name = 0 ∧ Straight (w.fill X other J) := by
  refine ⟨?_, straight.entries, straight.add fine⟩
  have missed := (straight.cache.miss (fun e good => good.1.1) miss).mono fun e _ good => good.2
  have still : (namecacheAdd w.cache ROOTDEV X other J).All fun e =>
    e.hits ROOTDEV P name = false := by
    refine missed.add fun e hits _ => ?_
    rw [← Bool.not_eq_true, Entry.hits_iff]
    grind [Entry.hits_iff]
  by_contra hit
  obtain ⟨e, missed, hits, _⟩ := still.lookup hit
  rw [missed] at hits
  cases hits

end Straight

section Calls

variable {s : State} {p : Fin NPROC} {call : Call}

/-- The call locks no inode that it has locked already: the name that `sys_link` makes does
not stand for its directory, and the cache knows no "." and ".." of the inode that
`sys_mkdir` takes. -/
def Untangled (s : State) (p : Fin NPROC) (call : Call) : Prop :=
  match call with
  | .sysLink _ _ => ∀ t ∈ call.target s p, (t.world.lookup t.dir t.name).2.map Prod.fst ≠ some t.dir
  | .sysMkdir _ => ∀ t ∈ call.target s p, (t.world.lookup t.dir t.name).2 = none →
      ∀ X ∈ t.world.vacant, ¬ Tangled t.world t.dir X
  | _ => True

instance (w : World) (P X : Nat) : Decidable (Tangled w P X) := inferInstanceAs (Decidable (_ ∨ _))

instance (s : State) (p : Fin NPROC) (call : Call) : Decidable (Untangled s p call) := by
  unfold Untangled
  split <;> infer_instance

/-- The call reads or writes a pipe, for which no inode is locked. -/
def Call.onPipe (s : State) (p : Fin NPROC) : Call → Prop
  | .sysRead fd _ | .sysWrite fd _ => ∃ i f, argfd p fd s = some (i, f) ∧ (s.ftable f).type = .pipe
  | _ => False

/-- The new name is still missing when `create` links it. -/
theorem Begins.missing {w w1 w2 : World} {P X J k : Nat} {name : List UInt8} {new : Dinode}
    (straight : Straight w) (begins : Begins new w P X w1) (apart : X ≠ P)
    (small : X ≠ 0 ∧ X < NINODES) (parent : P ≠ 0 ∧ P < NINODES) (lookup : Lookup w P name w none) :
    ¬ Lookup w1 P name w2 (some (J, k)) := by
  obtain ⟨_, miss, absent⟩ := lookup.of_none rfl
  obtain ⟨din, _, begins⟩ := begins
  have still : namecacheLookup w1.cache ROOTDEV P name = 0 ∧ w1.entries P = w.entries P := by
    split at begins
    · obtain ⟨w2, dot, dotdot⟩ := begins
      obtain ⟨size, addrs, rfl⟩ := dot.eq
      obtain ⟨size', addrs', rfl⟩ := dotdot.eq
      obtain ⟨miss1, straight1⟩ := @Straight.miss w P name straight X X [46] apart
        ⟨small, fun other => (other (by decide)).elim⟩ miss
      obtain ⟨miss2, _⟩ := @Straight.miss _ P name straight1 X P [46, 46] apart
        ⟨parent, fun other => (other (by decide)).elim⟩ miss1
      refine ⟨miss2, ?_⟩
      simp only [World.fill, World.resize, World.put, World.change, World.reset,
        Function.update_of_ne apart.symm]
    · rw [begins]
      exact ⟨miss, Function.update_of_ne apart.symm _ _⟩
  intro found
  rcases found.of_some rfl with ⟨_, hit, nonzero, _⟩ | ⟨_, _, there⟩
  · exact nonzero (hit.symm.trans still.1)
  · rw [still.2, absent] at there
    cases there

/-- The stops of a call that does not wait for a pipe. -/
def noWaits : Stops := ⟨fun _ => True, False⟩

theorem create_safe (base : Base s) (straight : Straight s.world) {type : Itype} {path : List UInt8}
    (dots : type = .dir → ∀ t, s.world.target (s.outside.start p path) (elements path) = some t →
      (t.world.lookup t.dir t.name).2 = none → ∀ X, t.world.vacant = some X →
      ¬ Tangled t.world t.dir X) :
    CreateSafe s p noWaits type path := by
  intro w P name X walk lookup vacant
  have none := base.noOrphans
  have straight1 := stable_straight.filled (walk.filled none) straight
  have target := walk.target none
  have dir := walk.dir
  obtain ⟨positive, below, free⟩ := vacant_spec vacant
  have apart : X ≠ P := by grind
  obtain ⟨cache, same⟩ := (walk.eq_walk none).2
  have parent := base.numbered P (by
    rw [same] at dir
    change s.world.type P = .dir at dir
    rw [dir]
    exact Itype.noConfusion)
  refine ⟨fun isDir tangled => dots isDir _ target ?_ X vacant tangled,
    fun w1 w2 J k begins found _ => ?_⟩
  · rw [lookup.eq]
  · exact begins.missing straight1 apart ⟨Nat.pos_iff_ne_zero.mp positive, below⟩ parent
      lookup found

theorem link_safe (base : Base s) {old new : List UInt8}
    (untangled : Untangled s p (.sysLink old new)) :
    LinkSafe s p noWaits old new := by
  intro w I name w1 P last w2 k walk other _ second lookup
  have none := base.noOrphans
  have counted := (none.recached (walk.eq_walk none).2).change I .link
  have target : (Call.sysLink old new).target s p = some ⟨w1, P, last⟩ := by
    rw [Call.target, (walk.eq_walk none).1]
    grind [Names.target]
  refine untangled _ target ?_
  rw [lookup.eq]
  rfl

theorem unlink_safe (base : Base s) (straight : Straight s.world) (path : List UInt8) :
    UnlinkSafe s p noWaits path := by
  intro w P name w1 k walk other lookup
  have straight1 := stable_straight.filled (walk.filled base.noOrphans) straight
  rcases lookup.of_some rfl with ⟨_, hit, nonzero, _⟩ | ⟨_, _, there⟩
  · rw [← hit] at nonzero
    obtain ⟨e, good, hits, inum⟩ := straight1.cache.lookup nonzero
    obtain ⟨_, _, parent, same⟩ := (Entry.hits_iff e).mp hits
    grind [dots_congr, Apart]
  · exact (straight1.scan there).2 other rfl

theorem safe_of_untangled (base : Base s) (straight : Straight s.world)
    (untangled : Untangled s p call) (other : ¬ call.onPipe s p) : call.Safe s p noWaits := by
  have walk : ∀ used w X names, Toured noWaits used w X names := toured_of_panics trivial
  cases call with
  | sysOpen path omode => exact ⟨walk _ _ _ _, create_safe base straight nofun⟩
  | sysMkdir path => exact ⟨walk _ _ _ _, create_safe base straight fun _ => untangled⟩
  | sysMknod path major minor => exact ⟨walk _ _ _ _, create_safe base straight nofun⟩
  | sysLink old new => exact ⟨walk _ _ _ _, fun _ _ _ _ _ _ => walk _ _ _ _,
      link_safe base untangled⟩
  | sysUnlink path => exact ⟨walk _ _ _ _, unlink_safe base straight path⟩
  | sysChdir | sysChmod | sysChown | exec => exact walk _ _ _ _
  | sysRead fd n => exact fun i f found pipe => other ⟨i, f, found, pipe⟩
  | sysWrite fd src => exact fun i f found pipe => other ⟨i, f, found, pipe⟩
  | sysClose | sysDup | sysPipe | sysFstat | fork | exit | setCreds => trivial

end Calls

section Runs

variable {im : Mkfs.Image} {files : List Mkfs.Source} {devsw : Int → Option Device}
  {calls : List (Fin NPROC × Call)} {s : State} {p : Fin NPROC} {call : Call}

/-- After any run on an image of mkfs, the names in directories and in the cache, the working
directories and the open files stand for inodes of the table; a call starts at none beyond it. -/
theorem names_numbered (made : Mkfs.Made im files) (reached : runSystem im devsw calls = some s) :
    (∀ D, ∀ de ∈ s.world.entries D, de.inum < NINODES) ∧
    (s.namecache.All fun e => e.inum < NINODES) ∧
    ∀ i, 0 < s.outside.refs i → (s.icache i).inum < NINODES := by
  obtain ⟨base, straight⟩ := stable_straight.run made (straight_boot made) reached
  refine ⟨fun D de member => ?_, straight.cache.mono fun e _ apart => apart.1.2, fun i used => ?_⟩
  · by_cases free : de.inum = 0
    · rw [free]
      decide
    · exact (straight.entries D de member free).1.2
  · exact (base.numbered _ ((base.mid 0).alive i used)).2

/-- After any run on an image of mkfs, a call of a process that runs does not wait for the
lock of an inode: no lock is held when it starts, so that it would wait for itself. -/
theorem no_self_deadlock (made : Mkfs.mkfs files = some im) (few : files.length < NINODES - 1)
    (room : im.freeblock ≤ FSSIZE) (reached : runSystem im devsw calls = some s)
    (running : (s.procs p).cwd ≠ none) (possible : call.possible s = true)
    (other : ¬ call.onPipe s p) (untangled : Untangled s p call) :
    (∀ i, (s.icache i).lock = none) ∧ call.perform p s ≠ .blocked := by
  have image := Mkfs.mkfs_made made few room
  obtain ⟨base, straight⟩ := stable_straight.run image (straight_boot image) reached
  have lenient : Lenient noWaits := fun _ _ => trivial
  have runs : Running noWaits s p := fun none => running none
  have spec := call_refines lenient base runs call (Or.inr trivial) possible
    (safe_of_untangled base straight untangled other)
  exact ⟨fun i => ((base.mid p).locks i).trans (if_neg List.not_mem_nil), fun blocked =>
    spec.blocked blocked⟩

/-- The superuser makes a file. -/
def oneFile : List (Fin NPROC × Call) := [(0, .sysOpen [47, 97] 0x202)]

theorem no_self_deadlock_mkdir :
    ∃ im s, Mkfs.mkfs [] = some im ∧ runSystem im (fun _ => none) oneFile = some s ∧
    Untangled s 0 (.sysMkdir [47, 98]) ∧ (Call.sysMkdir [47, 98]).perform 0 s ≠ .blocked := by
  obtain ⟨im, made, room, s, ran, running, untangled⟩ : Mkfs.Yields [] fun im =>
      ∃ s ∈ runSystem im (fun _ => none) oneFile,
        (s.procs 0).cwd ≠ none ∧ Untangled s 0 (.sysMkdir [47, 98]) := by decide +kernel
  have apart : ¬ (Call.sysMkdir [47, 98]).onPipe s 0 := not_false
  exact ⟨im, s, made, ran, untangled,
    (no_self_deadlock made (by decide) room ran running rfl apart untangled).2⟩

/-- `link("/a", "/.")` locks the root directory and then drops the one that it finds as
"." in it, for which it takes the lock again. -/
theorem link_dot_deadlocks :
    ∃ im s, Mkfs.mkfs [] = some im ∧ runSystem im (fun _ => none) oneFile = some s ∧
    (s.procs 0).cwd ≠ none ∧ (∀ i, (s.icache i).lock = none) ∧
    (Call.sysLink [47, 97] [47, 46]).perform 0 s = .blocked := by
  obtain ⟨im, made, -, s, ran, running, unlocked, blocked⟩ : Mkfs.Yields [] fun im =>
      ∃ s ∈ runSystem im (fun _ => none) oneFile,
        (s.procs 0).cwd ≠ none ∧ (∀ i, (s.icache i).lock = none) ∧
        (match (Call.sysLink [47, 97] [47, 46]).perform 0 s with
          | .blocked => true
          | _ => false) = true := by decide +kernel
  refine ⟨im, s, made, ran, running, unlocked, ?_⟩
  split at blocked
  · assumption
  · cases blocked

end Runs

end Xv6.Fs
