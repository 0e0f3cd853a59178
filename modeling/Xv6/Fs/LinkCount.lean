import Xv6.Fs.Growth

/- Link counts and names: after a run whose calls keep away from what breaks them, every
entry is for an allocated inode, and link counts are the numbers of references. -/
namespace Xv6.Fs

open Exec hiding panic
open Namecache CString

section Careful

/-- The inodes whose link count the call increments when it makes a name in `P`. -/
def Call.increments (s : State) (p : Fin NPROC) (P : Nat) : Call → List Nat
  | .sysMkdir _ => [P]
  | call => (call.linkee s p).toList

/-- The call does nothing that breaks the link counts: it removes no cached name and no
directory that is the ".." of an unlinked one, makes no name in an unlinked directory and
increments no link count that is a short no more then. -/
def Careful (s : State) (e : Fin NPROC × Call) : Prop :=
  match e.2 with
  | .sysUnlink path => ∀ t ∈ (Call.sysUnlink path).target s e.1, ¬ Dots t.name →
      NotCached t.world t.dir t.name ∧
      ∀ found ∈ scan t.name (t.world.entries t.dir), ¬ Full s.world found.2 → ∀ U < NINODES,
        s.world.type U = .dir → s.world.nlink U = 0 → s.world.up U ≠ some found.2
  | call => ∀ t ∈ call.target s e.1, (t.world.lookup t.dir t.name).2 = none →
      1 ≤ s.world.nlink t.dir ∧ ∀ I ∈ call.increments s e.1 t.dir, s.world.nlink I ≠ 32767

instance (s : State) (e : Fin NPROC × Call) : Decidable (Careful s e) := by
  unfold Careful
  split <;> infer_instance

variable {s : State} {p : Fin NPROC} {call : Call}

theorem Careful.makes (careful : Careful s (p, call)) (makes : ¬ ∃ path, call = .sysUnlink path)
    {t : Target} (target : call.target s p = some t)
    (absent : (t.world.lookup t.dir t.name).2 = none) :
    1 ≤ s.world.nlink t.dir ∧ ∀ I ∈ call.increments s p t.dir, s.world.nlink I ≠ 32767 := by
  cases call with
  | sysUnlink path => exact (makes ⟨path, rfl⟩).elim
  | _ => exact careful t target absent

end Careful

section Calls

/-- The tree with its link counts, and a cache that goes with it. -/
structure Sound (w : World) : Prop where
  forest : Forest w
  cache : Remembers w

variable {s : State} {p : Fin NPROC} {call : Call} {w w1 w' : World} {r : Int}

theorem Sound.filled {dirs : List Nat} (sound : Sound w) (fills : Filled dirs w w1) : Sound w1 :=
  ⟨sound.forest.recached fills.recached, sound.cache.filled fills⟩

theorem Sound.drop {used : Nat → Prop} {X : Nat} (sound : Sound w) (drop : Drop used w X w') :
    Sound w' :=
  ⟨sound.forest.drop drop, sound.cache.drop sound.forest drop⟩

theorem Sound.drops (sound : Sound w) (drops : Drops w w') : Sound w' := by
  induction drops with
  | refl => exact sound
  | step drop _ ih => exact ih (sound.drop drop)

theorem Sound.congr (sound : Sound w) (type : ∀ j, w'.type j = w.type j)
    (nlink : ∀ j, w'.nlink j = w.nlink j) (entries : ∀ j, w'.entries j = w.entries j)
    (cache : w'.cache = w.cache) : Sound w' :=
  ⟨sound.forest.congr type nlink entries, sound.cache.congr type entries cache⟩

/-- A careful call keeps the tree and the link counts. -/
theorem Effect.sound (effect : Effect s p call w' r) (base : Base s) (short : ShortLinks s.world)
    (sound : Sound s.world) (careful : Careful s (p, call)) : Sound w' := by
  cases effect with
  | looked fills => exact sound.filled fills
  | made aim reach kind makes fills dir lookup vacant begins links drop =>
    rename_i w1 w2 w3 type P X name
    obtain ⟨positive, below, free⟩ := vacant_spec vacant
    have nonzero : X ≠ 0 := Nat.pos_iff_ne_zero.mp positive
    obtain ⟨linked, room⟩ := careful.makes makes aim (by rw [lookup.eq])
    have before := sound.filled fills
    obtain ⟨cache, rfl⟩ := fills.recached
    have parent : World.LinkedDir { s.world with cache := cache } P := ⟨dir, linked⟩
    have numbered := (before.forest.numbered P (LinkedDir.allocated parent)).1
    refine Sound.drop ⟨before.forest.made begins links kind.1 free ⟨nonzero, below⟩ parent short
      fun isDir => ?_, (before.cache.begins begins free nonzero numbered).linked links nonzero⟩ drop
    obtain ⟨path, rfl⟩ := kind.2 isDir
    exact room P List.mem_cons_self
  | linked isLink source aim reach fills other allocated more links drop =>
    rename_i w1 w2 w3 I P name
    obtain ⟨old, new, rfl⟩ := isLink
    have absent : (w2.lookup P name).2 = none := by rw [(Lookup.missing links.miss links.absent).eq]
    obtain ⟨linked, room⟩ := careful.makes nofun aim absent
    have before := sound.filled fills
    have counted : Remembers (w1.change I .link) :=
      before.cache.congr (fun j => type_change w1 I j .link) (fun _ => rfl) rfl
    have cached := (counted.filled more).linked links (before.forest.numbered I allocated).1
    obtain ⟨cache, rfl⟩ := fills.recached
    refine Sound.drop ⟨before.forest.linked more.recached links other allocated linked
      (short I allocated) (room I ?_), cached⟩ drop
    change I ∈ ((Call.sysLink old new).linkee s p).toList
    rw [source]
    exact List.mem_singleton_self I
  | undone fills other allocated more drop =>
    rename_i w1 w2 I
    have back : Recached s.world (w2.change I .unlink) := by
      refine fills.recached.trans (recached_undone ?_ more.recached)
      obtain ⟨cache, rfl⟩ := fills.recached
      exact short I allocated
    have counted : Remembers (w1.change I .link) :=
      (sound.filled fills).cache.congr (fun j => type_change w1 I j .link) (fun _ => rfl) rfl
    rw [drop.still (base.noOrphans.recached back)]
    exact ⟨sound.forest.recached back,
      (counted.filled more).congr (fun j => type_change w2 I j .unlink) (fun _ => rfl) rfl⟩
  | removed isUnlink aim reach fills dir other lookup removes =>
    rename_i w1 w2 P I k name
    obtain ⟨path, rfl⟩ := isUnlink
    obtain ⟨misses, alone⟩ := careful _ aim other
    have found : Sound w2 := sound.filled (fills.trans (lookup.filled dir fun _ => reach))
    obtain ⟨rfl, there⟩ := removes.scanned lookup misses
    obtain ⟨de, at_, is, inum, _⟩ := scan_eq_some.mp there
    have back := (found.forest.tidy P dir).back at_ is other
    obtain ⟨cache, rfl⟩ := fills.recached
    refine ⟨found.forest.removes short removes dir at_ is.1 inum back
      fun empty U isDir unlinked => ?_, found.cache.removes removes⟩
    change s.world.type U = .dir at isDir
    have allocated : s.world.type U ≠ .free := by
      rw [isDir]
      exact Itype.noConfusion
    have zero : s.world.nlink U = 0 := by
      have count := sound.forest.count U allocated
      have other : ¬ 0 < s.world.nlink U := fun positive => unlinked ⟨isDir, positive⟩
      omega
    exact alone (k, I) there empty U (sound.forest.numbered U allocated).2 isDir zero
  | dropped fills drops => exact (sound.filled fills).drops drops
  | wrote writes =>
    induction writes with
    | refl => exact sound
    | step _ _ wrote ih =>
      rw [wrote]
      refine ih.congr (fun j => ?_) (fun j => ?_) (fun _ => rfl) rfl
      · rw [type_resize, type_store]
      · rw [nlink_resize, nlink_store]
  | chmod isChmod allowed fills eq | chown isChown allowed fills eq =>
    rw [eq]
    exact (sound.filled fills).congr (fun j => (links_change rfl j).1)
      (fun j => (links_change rfl j).2) (fun _ => rfl) rfl

end Calls

section Walks

/-- The stops of a call in which `ilock` finds a type. -/
def typed : Stops := ⟨fun message => message ≠ "ilock: no type", True⟩

/-- Every entry in use of a directory is for an allocated inode. -/
def Named (w : World) : Prop :=
  ∀ D, w.type D = .dir → ∀ de ∈ w.entries D, de.inum ≠ 0 → w.type de.inum ≠ .free

variable {used : Nat → Prop} {w w' : World} {s : State} {p : Fin NPROC}

theorem Sound.named (sound : Sound w) :
    Named w := fun _ dir _ member used => sound.forest.named dir member used

theorem Named.congr (named : Named w) (type : ∀ j, w'.type j = w.type j)
    (entries : ∀ j, w'.entries j = w.entries j) :
    Named w' := by
  intro D dir de member used
  rw [type] at dir ⊢
  rw [entries] at member
  exact named D dir de member used

/-- From an allocated inode a walk comes to allocated inodes. -/
theorem toured_of_named (none : NoOrphans used w) (named : Named w) (remembers : Remembers w)
    {X : Nat} (allocated : w.type X ≠ .free) (names : List (List UInt8)) :
    Toured typed used w X names := by
  refine ⟨fun w X _ => (NoOrphans used w ∧ Named w ∧ Remembers w) ∧ w.type X ≠ .free,
    ⟨fun w X _ known free => (known.2 free).elim, ?_⟩, ⟨none, named, remembers⟩, allocated⟩
  rintro w X name _ w1 I k w2 ⟨⟨none, named, remembers⟩, _⟩ dir lookup drop
  have filled : Filled [X] w w1 := lookup.filled dir fun _ => List.mem_cons_self
  have there : ∃ l, scan name (w.entries X) = some (l, I) := by
    rcases lookup.of_some rfl with ⟨_, hit, nonzero, _⟩ | ⟨_, _, there⟩
    · rw [← hit] at nonzero
      obtain ⟨e, known, hits, inum⟩ := Cache.All.lookup remembers nonzero
      obtain ⟨_, _, parent, same⟩ := (Entry.hits_iff e).mp hits
      obtain ⟨l, there⟩ := (known.right (parent ▸ dir)).found
      rw [parent, scan_congr same, inum, hit] at there
      exact ⟨l, there⟩
    · exact ⟨k, there⟩
  obtain ⟨l, there⟩ := there
  obtain ⟨de, at_, is, rfl, _⟩ := scan_eq_some.mp there
  have found := named X dir de (List.mem_of_getElem? at_) is.1
  obtain rfl := drop.still ((none.recached filled.recached).with de.inum)
  have after := remembers.filled filled
  obtain ⟨cache, rfl⟩ := filled.recached
  exact ⟨⟨none, named.congr (fun _ => rfl) fun _ => rfl, after⟩, found⟩

theorem safe_of_sound (base : Base s) (sound : Sound s.world) (running : (s.procs p).cwd ≠ none)
    (call : Call) :
    call.Safe s p typed := by
  have none := base.noOrphans
  have walk : ∀ path, WalkSafe s p typed path :=
    fun path => toured_of_named none sound.named sound.cache
      (base.start_allocated (LinkedDir.allocated sound.forest.root.1) running path) _
  have create : ∀ type path, CreateSafe s p typed type path :=
    fun _ _ _ _ _ _ _ _ _ => ⟨fun _ _ => trivial, fun _ _ _ _ _ _ _ => trivial⟩
  cases call with
  | sysOpen path _ | sysMkdir path | sysMknod path _ _ => exact ⟨walk path, create _ path⟩
  | sysLink old new =>
    refine ⟨walk old, fun w I name first _ _ => ?_, fun _ _ _ _ _ _ _ _ _ _ _ _ _ => trivial⟩
    have after := sound.filled (first.filled none)
    have type : ∀ j, (w.change I .link).type j = w.type j := fun j => type_change w I j .link
    refine toured_of_named ((none.recached (first.eq_walk none).2).change I .link)
      (after.named.congr type fun _ => rfl) (after.cache.congr type (fun _ => rfl) rfl) ?_ _
    rw [type]
    obtain ⟨cache, rfl⟩ := (first.eq_walk none).2
    exact base.start_allocated (LinkedDir.allocated sound.forest.root.1) running new
  | sysUnlink path => exact ⟨walk path, fun _ _ _ _ _ _ _ _ => trivial⟩
  | sysChdir path | sysChmod path _ | sysChown path _ | exec path _ _ _ => exact walk path
  | sysRead | sysWrite => exact fun _ _ _ _ => trivial
  | sysClose | sysDup | sysPipe | sysFstat | fork | exit | setCreds => trivial

end Walks

section Runs

variable {im : Mkfs.Image} {files : List Mkfs.Source} {devsw : Int → Option Device}
  {calls : List (Fin NPROC × Call)} {s : State}

/-- Slot `k` of the root directory of an image is for inode `k`. -/
theorem boot_entry (made : Mkfs.Made im files) {k : Nat} {de : Dirent}
    (at_ : ((im.boot devsw).world.entries ROOTINO)[k + 1]? = some de) :
    de.inum = if k < 1 + files.length then k + 1 else 0 := by
  obtain ⟨free, entries⟩ := @boot_root im files devsw made
  rw [entries, List.append_assoc] at at_
  cases k with
  | zero =>
    cases at_
    exact (if_pos (by omega)).symm
  | succ k =>
    change ((Mkfs.fileEntries 2 files ++ List.replicate free Dirent.zero) : List Dirent)[k]? =
      some de at at_
    by_cases inside : k < files.length
    · rw [List.getElem?_append_left (by rw [Mkfs.fileEntries_length]; exact inside)] at at_
      rw [Mkfs.getElem?_fileEntries, List.getElem?_eq_getElem inside, Option.map_some,
        Option.some.injEq] at at_
      rw [if_pos (by omega), ← at_]
      exact Nat.add_comm 2 k
    · rw [List.getElem?_append_right (by rw [Mkfs.fileEntries_length]; omega)] at at_
      rw [List.eq_of_mem_replicate (List.mem_of_getElem? at_), if_neg (by omega)]
      rfl

theorem boot_linkedDir (made : Mkfs.Made im files) {D : Nat} :
    (im.boot devsw).world.LinkedDir D ↔ D = ROOTINO := by
  refine ⟨fun linked => made_dir made linked.1, ?_⟩
  rintro rfl
  have one : (im.boot devsw).world.nlink ROOTINO = 1 := made.nlink
  exact ⟨made.type, by rw [one]; exact one_pos⟩

theorem boot_refers (made : Mkfs.Made im files) (distinct : DistinctNames files) {j D k : Nat} :
    (im.boot devsw).world.Refers j D k ↔ D = ROOTINO ∧ k = j ∧ 0 < j ∧ j < 2 + files.length := by
  have tidy := @tidy_boot im files devsw made distinct
  have root : (im.boot devsw).world.LinkedDir ROOTINO := (boot_linkedDir made).mpr rfl
  constructor
  · intro refers
    have behind := refers.pos tidy
    obtain ⟨linked, de, at_, used, _, rfl⟩ := refers
    rw [boot_linkedDir made] at linked
    subst linked
    obtain ⟨k, rfl⟩ := Nat.exists_eq_succ_of_ne_zero behind
    have inum := boot_entry made at_
    grind
  · rintro ⟨rfl, rfl, positive, below⟩
    obtain ⟨k, rfl⟩ := Nat.exists_eq_succ_of_ne_zero (Nat.pos_iff_ne_zero.mp positive)
    obtain ⟨free, entries⟩ := @boot_root im files devsw made
    have inside : k + 1 < ((im.boot devsw).world.entries ROOTINO).length := by
      grind [List.length_append, Mkfs.fileEntries_length, List.length_cons, List.length_nil]
    have at_ := List.getElem?_eq_getElem inside
    have inum := boot_entry made at_
    rw [if_pos (by omega)] at inum
    have refers := refers_of_entry tidy root at_ (Nat.succ_ne_zero k)
      (by rw [inum]; exact Nat.succ_ne_zero k)
    rwa [inum] at refers

theorem forest_boot (made : Mkfs.Made im files) (distinct : DistinctNames files) :
    Forest (im.boot devsw).world := by
  have tidy := @tidy_boot im files devsw made distinct
  have root : (im.boot devsw).world.LinkedDir ROOTINO := (boot_linkedDir made).mpr rfl
  have up : (im.boot devsw).world.up ROOTINO = some ROOTINO := by
    obtain ⟨free, entries⟩ := @boot_root im files devsw made
    rw [World.up, entries]
    rfl
  have numbered : (im.boot devsw).world.Numbered := by
    intro j allocated
    obtain ⟨positive, below⟩ := (made.sane devsw).numbered j allocated
    exact ⟨Nat.pos_iff_ne_zero.mp positive, below⟩
  have inside : ∀ j, (im.boot devsw).world.type j ≠ .free → 0 < j ∧ j < 2 + files.length := by
    intro j allocated
    refine ⟨Nat.pos_iff_ne_zero.mpr (numbered j allocated).1, ?_⟩
    by_contra beyond
    exact allocated (made.unused j (by omega))
  refine ⟨numbered, tidy, fun D dir other =>
    (other ((boot_linkedDir made).mpr (made_dir made dir))).elim,
    fun D dir => ?_, ⟨root, up⟩, fun D k back refers => ?_, fun j linked other => ?_,
    fun j allocated => ?_, fun j free D k refers => ?_⟩
  · rw [show D = ROOTINO from made_dir made dir]
    exact ⟨ROOTINO, up, root⟩
  · have same := ((boot_refers made distinct).mp refers).2.1
    simp only [ROOTINO] at same
    omega
  · exact (other ((boot_linkedDir made).mp linked)).elim
  · have one : (im.boot devsw).world.nlink j = 1 := made_nlink made allocated
    rw [one, Finset.card_eq_one.mpr ⟨⟨ROOTINO, j⟩, ?_⟩]
    · rfl
    ext ⟨D, k⟩
    rw [mem_references numbered, boot_refers made distinct, Finset.mem_singleton, Sigma.mk.injEq,
      heq_eq_eq]
    exact ⟨fun all => ⟨all.1, all.2.1⟩, fun both => ⟨both.1, both.2, inside j allocated⟩⟩
  · obtain ⟨_, _, positive, below⟩ := (boot_refers made distinct).mp refers
    change (im.dinodes j).type = .free at free
    by_cases isRoot : j = ROOTINO
    · rw [isRoot, made.type] at free
      cases free
    · rw [(made.files j (by simp only [ROOTINO] at isRoot ⊢; omega) below).1] at free
      cases free

/-- After any run of careful calls on an image of mkfs, every entry in use of a directory is
for an allocated inode, and the link count of an inode is the number of entries, with a name
other than ".", of linked directories that refer to it. No call finds an inode without a
type in `ilock` then. -/
theorem link_counts_exact (made : Mkfs.mkfs files = some im) (few : files.length < NINODES - 1)
    (room : im.freeblock ≤ FSSIZE) (distinct : DistinctNames files)
    (meets : SystemMeets Careful im devsw calls) (reached : runSystem im devsw calls = some s) :
    (∀ D, s.world.type D = .dir → ∀ de ∈ s.world.entries D, de.inum ≠ 0 →
      s.world.type de.inum ≠ .free) ∧
    (∀ j, s.world.type j ≠ .free → s.world.nlink j = (s.world.references j).card) ∧
    ∀ p call, callStep s (p, call) ≠ .panic "ilock: no type" := by
  have image := Mkfs.mkfs_made made few room
  have holds : Base s ∧ ShortLinks s.world ∧ Sound s.world := by
    refine @run_system im files devsw Careful (fun s => ShortLinks s.world ∧ Sound s.world) image
      (fun s _ world => ?_) (fun s p call r s' base both careful taken => ?_) calls s meets reached
    · rw [world]
      exact ⟨shortLinks_boot image, forest_boot image distinct, all_namecacheInit _⟩
    · have effect := callStep_effect base taken
      exact ⟨effect.stable stable_shortLinks base.numbered both.1,
        effect.sound base both.1 both.2 careful⟩
  obtain ⟨base, _, sound⟩ := holds
  refine ⟨sound.named, sound.forest.count, fun p call panics => ?_⟩
  rw [callStep] at panics
  split at panics
  · rename_i can
    have lenient : Lenient typed := by
      intro message member
      exact ne_of_mem_of_not_mem member (by decide)
    have roomy : s.outside.Roomy typed call.slots :=
      Or.inr (show "iget: no inodes" ≠ "ilock: no type" by decide)
    have spec := call_refines lenient base (fun none => (can.1 none).elim) call roomy can.2
      (safe_of_sound base sound can.1 call)
    exact spec.panicked panics rfl
  · cases panics

/-- A file in a directory gets a second link. -/
def linkTwice : List (Fin NPROC × Call) :=
  [(0, .sysMkdir [47, 100]), (0, .sysOpen [47, 100, 47, 102] 0x202),
    (0, .sysLink [47, 100, 47, 102] [47, 103])]

theorem link_counts_exact_linkTwice : ∃ im s, Mkfs.mkfs [] = some im ∧
    runSystem im (fun _ => none) linkTwice = some s ∧ s.world.nlink 3 = 2 ∧
    s.world.nlink 3 = (s.world.references 3).card := by
  obtain ⟨im, made, room, s, ran, meets, allocated, two⟩ : Mkfs.Yields [] fun im =>
      ∃ s ∈ runSystem im (fun _ => none) linkTwice, SystemMeets Careful im (fun _ => none)
        linkTwice ∧
        s.world.type 3 ≠ .free ∧ s.world.nlink 3 = 2 := by decide +kernel
  exact ⟨im, s, made, ran, two,
    (link_counts_exact made (by decide) room (by decide) meets ran).2.1 3 allocated⟩

/-- A new file is unlinked while its name is cached, and closed. -/
def unlinkCached : List (Fin NPROC × Call) :=
  [(0, .sysOpen [47, 97] 0x202), (0, .sysUnlink [47, 97]), (0, .sysClose 0)]

/-- Its inode is freed and its entry is still there, so that the next `open` panics. -/
theorem entry_of_freed_inode : ∃ im s de, Mkfs.mkfs [] = some im ∧
    runSystem im (fun _ => none) unlinkCached = some s ∧ s.world.type ROOTINO = .dir ∧
    (s.world.entries ROOTINO)[2]? = some de ∧ de.inum ≠ 0 ∧ s.world.type de.inum = .free ∧
    callStep s (0, .sysOpen [47, 97] 0) = .panic "ilock: no type" := by
  obtain ⟨im, made, -, s, ran, dir, de, there, used, free, stopped⟩ : Mkfs.Yields [] fun im =>
      ∃ s ∈ runSystem im (fun _ => none) unlinkCached, s.world.type ROOTINO = .dir ∧
        ∃ de ∈ (s.world.entries ROOTINO)[2]?, de.inum ≠ 0 ∧ s.world.type de.inum = .free ∧
          (callStep s (0, .sysOpen [47, 97] 0)).message = some "ilock: no type" := by decide +kernel
  exact ⟨im, s, de, made, ran, dir, there, used, free, Outcome.message_eq_some.mp stopped⟩

end Runs

end Xv6.Fs
