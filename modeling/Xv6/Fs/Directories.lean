import Mathlib.Data.List.TakeWhile
import Xv6.Fs.Removal
import Xv6.Mkfs.Crowded

/- Directories stay well formed in every run, if the inodes of the image are in their place. The
name cache may be stale, but dirlink puts a name only where a scan has not found it, and
sys_unlink clears a whole entry, if not always the right one. With enough files mkfs puts inodes
over the root directory. -/
namespace Xv6.Fs

open Namecache CString Exec

section Names

/-- No directory has a name twice. -/
def UniqueNames (w : World) : Prop := ∀ D, w.type D = .dir → OneEach (w.entries D)

variable {w w' : World} {P I : Nat} {name : List UInt8}

theorem UniqueNames.congr (unique : UniqueNames w) (type : ∀ j, w'.type j = w.type j)
    (entries : ∀ j, w'.entries j = w.entries j) : UniqueNames w' := by
  intro D dir
  rw [type] at dir
  rw [entries]
  exact unique D dir

/-- An inode without entries. -/
theorem UniqueNames.reset (unique : UniqueNames w) (X : Nat) (din : Dinode) :
    UniqueNames (w.reset X din) := by
  intro D dir
  change OneEach (Function.update w.entries X [] D)
  by_cases here : D = X
  · rw [here, Function.update_self]
    intro j k d e there
    cases there
  · rw [type_reset, if_neg here] at dir
    rw [Function.update_of_ne here]
    exact unique D dir

/-- One directory gets another entry. -/
theorem UniqueNames.put (unique : UniqueNames w) {k : Nat} {de : Dirent}
    (fits : k ≤ (w.entries P).length) (new : de.inum ≠ 0 → ∀ e ∈ w.entries P, ¬ e.Is de.name)
    (type : ∀ j, w'.type j = w.type j)
    (entries : ∀ j, w'.entries j = if j = P then putEntry (w.entries P) k de else w.entries j) :
    UniqueNames w' := by
  intro D dir
  rw [type] at dir
  rw [entries]
  split
  · rename_i here
    subst here
    exact (unique D dir).put fits new
  · exact unique D dir

theorem stable_uniqueNames : Stable UniqueNames where
  fill unique _ _ := unique
  free X _ unique := unique.reset X _
  fresh X _ din unique _ := unique.reset X din
  change X c unique := unique.congr (fun j => type_change _ X j c) fun _ => rfl
  linked unique _ _ linked :=
    unique.put (firstFree_le _) (fun _ => newEntry_new linked.absent) linked.type linked.entries
  clear _ _ _ _ _ unique fits :=
    unique.put fits (fun used => (used rfl).elim) (fun _ => type_resize _ _ _ _ _)
      fun _ => Function.update_apply _ _ _ _
  write _ _ _ unique _ := unique.congr (fun _ => type_resize _ _ _ _ _) fun _ => rfl

end Names

section Runs

variable {im : Mkfs.Image} {files : List Mkfs.Source} {devsw : Int → Option Device}
  {calls : List (Fin NPROC × Call)} {s : State}

/-- The panics of a directory that is not read as whole entries. -/
def tornReads : List String := ["dirlookup read", "dirlink read", "isdirempty: readi"]

/-- An empty file with a name of two letters. -/
def crowdFile (i : Nat) : Mkfs.Source :=
  ⟨[UInt8.ofNat (65 + i / 16), UInt8.ofNat (97 + i % 16)], []⟩

/-- Enough files that the last two inodes lie in the first data block. -/
def crowd : List Mkfs.Source := (List.range 256).map crowdFile

theorem ofNat_ne {n : Nat} (c : UInt8) (fits : n < 2 ^ 8) (other : n ≠ c.toNat) :
    UInt8.ofNat n ≠ c := by
  intro same
  have value := congrArg UInt8.toNat same
  rw [UInt8.toNat_ofNat', Nat.mod_eq_of_lt fits] at value
  exact other value

/-- The letters are not NUL, '.', '/' or '_'. -/
theorem crowdFile_letters {i : Nat} (small : i < 256) :
    ∀ c ∈ [0, 46, 47, 95], ∀ letter ∈ (crowdFile i).name, letter ≠ c := by
  intro c member letter inside
  have other : c.toNat < 65 ∨ 80 < c.toNat ∧ c.toNat < 97 := by
    simp only [List.mem_cons, List.not_mem_nil, or_false] at member
    rcases member with rfl | rfl | rfl | rfl <;> decide
  rcases List.mem_pair.mp inside with rfl | rfl
  · exact ofNat_ne c (by omega) (by omega)
  · exact ofNat_ne c (by omega) (by omega)

theorem crowdFile_injective {i j : Nat} (small : i < 256) (small' : j < 256)
    (same : (crowdFile i).name = (crowdFile j).name) : i = j := by
  obtain ⟨first, rest⟩ := List.cons.inj same
  have one := congrArg UInt8.toNat first
  have two := congrArg UInt8.toNat (List.cons.inj rest).1
  rw [UInt8.toNat_ofNat', UInt8.toNat_ofNat'] at one two
  omega

theorem targetName_crowdFile {i : Nat} (small : i < 256) :
    Mkfs.targetName (crowdFile i).name = (crowdFile i).name :=
  if_neg (crowdFile_letters small 95 (by decide) _ List.mem_cons_self)

theorem fieldString_crowdFile {i : Nat} (small : i < 256) :
    fieldString DIRSIZ (crowdFile i).name = (crowdFile i).name := by
  refine List.takeWhile_eq_self_iff.mpr fun letter member => ?_
  exact decide_eq_true (crowdFile_letters small 0 (by decide) letter member)

theorem crowdFile_legal {i : Nat} (small : i < 256) : (crowdFile i).name.contains 47 = false := by
  rw [List.contains_eq_mem, decide_eq_false_iff_not]
  exact fun member => crowdFile_letters small 47 (by decide) 47 member rfl

theorem crowd_distinct : DistinctNames crowd := by
  have names : (crowd.map fun file => Mkfs.targetName file.name) = (List.range 256).map fun i =>
    (crowdFile i).name := by
    rw [crowd, List.map_map]
    exact List.map_congr_left fun i member => targetName_crowdFile (List.mem_range.mp member)
  have dots : ∀ name ∈ (List.range 256).map fun i => (crowdFile i).name,
      namecmp [46] name ≠ 0 ∧ namecmp [46, 46] name ≠ 0 := by
    intro name member
    obtain ⟨i, inside, rfl⟩ := List.mem_map.mp member
    have small := List.mem_range.mp inside
    have dotless := crowdFile_letters small 46 (by decide) 46
    rw [ne_eq, ne_eq, namecmp_eq_zero, namecmp_eq_zero, fieldString_crowdFile small]
    refine ⟨fun same => ?_, fun same => ?_⟩
    · exact dotless (same ▸ (by decide : (46 : UInt8) ∈ fieldString DIRSIZ [46])) rfl
    · exact dotless (same ▸ (by decide : (46 : UInt8) ∈ fieldString DIRSIZ [46, 46])) rfl
  rw [DistinctNames, rootNames, names, List.pairwise_cons, List.pairwise_cons, List.pairwise_map]
  refine ⟨fun name member => ?_, fun name member => (dots name member).2, ?_⟩
  · rcases List.mem_cons.mp member with rfl | later
    · decide
    · exact (dots name later).1
  · refine List.Pairwise.imp_of_mem (fun {i j} here there less same => ?_) List.pairwise_lt_range
    have small := List.mem_range.mp here
    have small' := List.mem_range.mp there
    grind [namecmp_eq_zero, fieldString_crowdFile, Nat.ne_of_lt, crowdFile_injective]

theorem crowd_empty {indices : List Nat} : ∀ file ∈ indices.map crowdFile, file.reads = [] := by
  intro file member
  obtain ⟨i, -, rfl⟩ := List.mem_map.mp member
  rfl

theorem crowd_legal {indices : List Nat} (small : ∀ i ∈ indices, i < 256) :
    ∀ file ∈ indices.map crowdFile, file.name.contains 47 = false := by
  intro file member
  obtain ⟨i, inside, rfl⟩ := List.mem_map.mp member
  exact crowdFile_legal (small i inside)

theorem crowd_split : crowd = (List.range 198).map crowdFile ++
    ((List.range' 198 56).map crowdFile ++ [crowdFile 254, crowdFile 255]) := by
  have all : List.range 256 = List.range 198 ++ (List.range' 198 56 ++ [254, 255]) := by
    decide +kernel
  rw [crowd, all, List.map_append, List.map_append]
  rfl

/-- The entry that the kernel reads where an inode of a file begins. -/
def inodeEntry : Dirent := Dirent.ofBytes ((List.range DIRENTSIZE).map (Mkfs.Disk.newInode .file))

theorem crowd_overwritten : ∃ d im, Mkfs.Disk.mkfs crowd = some d ∧ d.image Mkfs.sb = im ∧
    (im.dinodes ROOTINO).type = .dir ∧ ∀ m ∈ [0, 8],
      (entriesOf im.blocks (im.dinodes ROOTINO))[m]? = some inodeEntry := by
  obtain ⟨root, rooted⟩ := Mkfs.exists_rooted
  obtain ⟨d0, im0, crowded0, full, disk⟩ := rooted.crowded
    (show ((List.range 198).map crowdFile).length =
    _ by rw [List.length_map, List.length_range]; decide) crowd_empty
    (crowd_legal fun i member => (List.mem_range.mp member).trans (by decide))
  obtain ⟨d1, im1, ran, crowded1, count1⟩ := crowded0.run (by omega)
    (show im0.freeinode + ((List.range' 198 56).map crowdFile).length ≤ 288 by
      rw [full, List.length_map, List.length_range']; decide) crowd_empty
    (crowd_legal fun i member => by rw [List.mem_range'_1] at member; omega)
  rw [full, List.length_map, List.length_range'] at count1
  obtain ⟨d2, im2, added, crowded2, count2, bytes⟩ := crowded1.overwritten count1
    (crowdFile_legal (show 254 < 256 by decide)) (crowdFile_legal (show 255 < 256 by decide))
  obtain ⟨d, ended, packed, -⟩ := Mkfs.finish_packed crowded2.packed crowded2.ok crowded2.type
  have root := Mkfs.fixRoot_root im2
  refine ⟨d, _, ?_, packed.image, ?_, fun m member => ?_⟩
  · rw [crowd_split, disk, Runs.run_append, ran, Option.bind_some]
    have two : Runs.run Mkfs.Disk.addFile d1 [crowdFile 254, crowdFile 255] = some d2 := added
    rw [two, Option.bind_some, ended]
  · exact crowded2.type
  · have size : ((Mkfs.fixRoot im2).dinodes ROOTINO).size / DIRENTSIZE = 512 := by
      grind [Mkfs.Crowded.size]
    have inside : m < 512 := by
      rcases List.mem_pair.mp member with rfl | rfl <;> decide
    rw [entriesOf, size, List.getElem?_map, List.getElem?_range inside, Option.map_some,
      Option.some.injEq, inodeEntry, contentOf]
    refine congrArg Dirent.ofBytes (List.map_congr_left fun k short => ?_)
    have below := List.mem_range.mp short
    have place : DIRENTSIZE * m + k < BSIZE := by
      simp only [DIRENTSIZE, DIRSIZ, BSIZE] at below ⊢
      rcases List.mem_pair.mp member with rfl | rfl <;> omega
    have first : ((Mkfs.fixRoot im2).dinodes ROOTINO).addrs 0 = nmeta := by exact crowded2.first
    rw [byteAt, Nat.div_eq_of_lt place, Nat.mod_eq_of_lt place, blockAddr_direct (by decide), first]
    exact bytes m member k below

/-- After any run on an image of mkfs with different names, no directory is open for writing,
all have a whole number of entries and no name twice; no call panics when it reads one. -/
theorem directories_well_formed {d : Mkfs.Disk} (made : Mkfs.Disk.mkfs files = some d)
    (few : files.length < NINODES - 1) (distinct : DistinctNames files)
    (reached : runSystem (d.image Mkfs.sb) devsw calls = some s) : (∀ D, (s.dinodes D).type = .dir →
      (∀ f, (s.ftable f).type = .inode → (s.ftable f).writable = true →
        (s.icache (s.ftable f).ip).inum ≠ D) ∧
      DIRENTSIZE ∣ (s.dinodes D).size ∧
      ∀ (j k : Nat) (d e : Dirent), (s.world.entries D)[j]? = some d →
        (s.world.entries D)[k]? = some e →
        d.inum ≠ 0 → e.inum ≠ 0 → namecmp d.name e.name = 0 → j = k) ∧
    ∀ message ∈ tornReads, ∀ p call, callStep s (p, call) ≠ .panic message := by
  obtain ⟨im, built, packed, -⟩ := (Mkfs.mkfs_within few).sound d made
  have image := Mkfs.mkfs_made built few packed.fits
  rw [packed.image] at reached
  have initial : UniqueNames (im.boot devsw).world := fun D dir =>
    (tidy_boot image distinct D dir).names
  obtain ⟨base, unique⟩ := stable_uniqueNames.run image initial reached
  refine ⟨fun D dir => ⟨fun f inode writable here => ?_, (base.mid 0).whole D dir,
    fun j k d e here there used live same => ?_⟩, fun message member p call => ?_⟩
  · refine base.files f inode writable ?_
    rw [here]
    exact dir
  · exact unique D dir j k d e here there used ⟨live, ((namecmp_eq_zero _ _).mp same).symm⟩
  · have roomy : s.outside.Roomy (Stops.except tornReads) call.slots :=
      Or.inr (show "iget: no inodes" ∉ tornReads by decide)
    exact callStep_never base (by decide) roomy member

/-- A file is made and unlinked while its name is cached, so that "." is cleared; another
name takes the free slot. -/
def slotReused : List (Fin NPROC × Call) :=
  [(0, .sysOpen [47, 97] 0x202), (0, .sysUnlink [47, 97]), (0, .sysMkdir [47, 98])]

theorem directories_well_formed_slotReused : ∃ d s, Mkfs.Disk.mkfs oneSource = some d ∧
    runSystem (d.image Mkfs.sb) (fun _ => none) slotReused = some s ∧
      (s.dinodes ROOTINO).type = .dir ∧
    scan [98] (s.world.entries ROOTINO) = some (0, 4) ∧ DIRENTSIZE ∣ (s.dinodes ROOTINO).size ∧
    callStep s (0, .sysUnlink [47, 98]) ≠ .panic "isdirempty: readi" := by
  have returns : ((Mkfs.Disk.mkfs oneSource).bind fun d =>
      (runSystem (d.image Mkfs.sb) (fun _ => none) slotReused).map fun s =>
        decide ((s.dinodes ROOTINO).type = .dir ∧ scan [98] (s.world.entries ROOTINO) =
          some (0, 4))) =
      some true := by decide +kernel
  obtain ⟨d, made, ran⟩ := Option.bind_eq_some_iff.mp returns
  obtain ⟨s, ran, facts⟩ := Option.map_eq_some_iff.mp ran
  obtain ⟨dir, found⟩ := of_decide_eq_true facts
  obtain ⟨formed, never⟩ := directories_well_formed made (by decide) (by decide) ran
  exact ⟨d, s, made, ran, dir, found, (formed ROOTINO dir).2.1, never _ (by decide) 0 _⟩

/-- With 256 files of different names two live entries of the root directory have the same
name, which is empty, before the first call. -/
theorem crowd_names_twice :
    ¬ ∀ files d devsw s, Mkfs.Disk.mkfs files = some d → DistinctNames files →
    runSystem (d.image Mkfs.sb) devsw [] = some s → ∀ D, (s.dinodes D).type = .dir →
      ∀ (j k : Nat) (d e : Dirent), (s.world.entries D)[j]? = some d →
        (s.world.entries D)[k]? = some e →
        d.inum ≠ 0 → e.inum ≠ 0 → namecmp d.name e.name = 0 → j = k := by
  intro always
  obtain ⟨d, im, made, rfl, dir, entries⟩ := crowd_overwritten
  have started : ∃ s, runSystem (d.image Mkfs.sb) (fun _ => none) [] = some s ∧
      s.dinodes = (d.image Mkfs.sb).dinodes ∧ s.blocks = (d.image Mkfs.sb).blocks :=
      ⟨_, rfl, rfl, rfl⟩
  obtain ⟨s, ran, dinodes, blocks⟩ := started
  rw [← dinodes] at dir entries
  rw [← blocks] at entries
  have seen : s.world.entries ROOTINO = entriesOf s.blocks (s.dinodes ROOTINO) := if_pos dir
  rw [← seen] at entries
  have live : inodeEntry.inum ≠ 0 := by decide +kernel
  have same := always crowd d _ s made crowd_distinct ran ROOTINO dir 0 8 inodeEntry inodeEntry
    (entries 0 (by decide)) (entries 8 (by decide)) live live ((namecmp_eq_zero _ _).mpr rfl)
  cases same

end Runs

end Xv6.Fs
