import Mathlib.Data.List.TakeWhile
import Xv6.Fs.Readable
import Xv6.Fs.Removal
import Xv6.Mkfs.Packing

/- The kernel finds on the disk what mkfs was given: the files by their names, with their bytes,
and a bitmap that marks the blocks in use. -/
namespace Xv6.Mkfs

open Exec hiding panic
open Fs CString

section Path

theorem takeWhile_name {name : List UInt8} (legal : name.contains 47 = false) :
    (name.takeWhile fun c => decide (c ≠ 47 ∧ c ≠ 0)) = name.takeWhile fun c => decide (c ≠ 0) := by
  induction name with
  | nil => rfl
  | cons c rest ih =>
    rw [List.contains_cons, Bool.or_eq_false_iff, beq_eq_false_iff_ne] at legal
    have other : c ≠ 47 := legal.1.symm
    grind [List.takeWhile_cons, not_false_eq_true]

/-- The path of a name in the root directory has one element. -/
theorem elements_name {name : List UInt8} (legal : name.contains 47 = false)
    (nonempty : deref name ≠ 0) :
    ∃ first, elements (47 :: name) = [first] ∧ fieldString DIRSIZ first = fieldString DIRSIZ
      name := by
  cases name with
  | nil => exact (nonempty rfl).elim
  | cons c rest =>
    have other : c ≠ 47 := by grind
    have start : (47 :: c :: rest).dropWhile (fun x => decide (x = 47)) = c :: rest := by
      simp [other]
    have ends : elements (((c :: rest).dropWhile fun c => decide (c ≠ 47 ∧ c ≠ 0)).dropWhile
        fun x => decide (x = 47)) = [] := by
      have head := List.head?_dropWhile_not (fun c => decide (c ≠ 47 ∧ c ≠ 0)) (c :: rest)
      have member := (List.dropWhile_suffix (fun c => decide (c ≠ 47 ∧ c ≠ 0))
        (l := c :: rest)).subset
      revert head member
      cases (c :: rest).dropWhile fun c => decide (c ≠ 47 ∧ c ≠ 0) with
      | nil => exact fun _ _ => rfl
      | cons d tail =>
        intro head member
        have apart : d ≠ 47 := by grind
        have nul : d = 0 := by
          simpa [apart] using head
        subst nul
        rfl
    refine ⟨((c :: rest).takeWhile fun c => decide (c ≠ 47 ∧ c ≠ 0)).take DIRSIZ, ?_, ?_⟩
    · grind [elements_eq, skipelem]
    · rw [takeWhile_name legal, fieldString, fieldString, List.take_take, Nat.min_self,
        List.take_takeWhile]
      exact List.takeWhile_idem

end Path

section Root

variable {im : Image} {files : List Source} {devsw : Int → Option Device} {p : Fin NPROC}

/-- The scan of the root directory finds entry `k` by its name. -/
theorem scan_root (made : Made im files) (distinct : DistinctNames files) {k : Nat} {de : Dirent}
    {name : List UInt8} (at_ : ((im.boot devsw).world.entries ROOTINO)[k]? = some de)
    (is : de.Is name) :
    scan name ((im.boot devsw).world.entries ROOTINO) = some (k, de.inum) := by
  have tidy := @tidy_boot im files devsw made distinct ROOTINO made.type
  refine scan_eq_some.mpr ⟨de, at_, is, rfl, fun j below e there same => ?_⟩
  have equal := tidy.names k j de e at_ there is.1 ⟨same.1, same.2.trans is.2.symm⟩
  omega

/-- The walk of a path with one element, on the image. -/
theorem walk_root (made : Made im files) (distinct : DistinctNames files) {k : Nat} {de : Dirent}
    {name : List UInt8} (at_ : ((im.boot devsw).world.entries ROOTINO)[k]? = some de)
    (is : de.Is name) (legal : name.contains 47 = false) (nonempty : deref name ≠ 0) :
    ((im.boot devsw).world.walk false ROOTINO (elements (47 :: name))).2 = some (de.inum, []) := by
  obtain ⟨first, path, same⟩ := elements_name legal nonempty
  have dir : (im.boot devsw).world.type ROOTINO = .dir := made.type
  have empty : Namecache.namecacheLookup (im.boot devsw).world.cache ROOTDEV ROOTINO first = 0 := by
    rfl
  rw [path, World.walk, if_neg (not_not_intro dir),
    if_neg (fun asked => Bool.false_ne_true asked.1), World.lookup,
    if_neg (not_not_intro empty), scan_congr same, scan_root made distinct at_ is]
  rfl

/-- `namei` reaches the inode that the walk leads to. -/
theorem namei_root (made : Made im files) {path last : List UInt8} {I : Nat}
    (absolute : deref path = 47)
    (there : ((im.boot devsw).world.walk false ROOTINO (elements path)).2 = some (I, last))
    (allocated : (im.dinodes I).type ≠ .free) :
    Spec Stops.nothing (namei p path) (im.boot devsw) fun found s => ∃ ip, found = some ip ∧
      Midway (im.boot devsw).outside p [(ip, I)] [] s ∧ Recached (im.boot devsw).world s.world := by
  have base := @base_boot im files devsw made
  have none := base.noOrphans
  have roomy : (im.boot devsw).outside.Roomy Stops.nothing 2 := by
    left
    rw [← base.slotsInUse]
    have unused : slotsInUse (im.boot devsw) = 0 := Finset.card_eq_zero.mpr
      (Finset.filter_eq_empty_iff.mpr fun _ _ => Nat.lt_irrefl 0)
    rw [unused]
    decide
  have start : (im.boot devsw).outside.start p path = ROOTINO := if_pos absolute
  obtain ⟨inv, tour, begins⟩ := @toured_of_walk Stops.nothing _ _ ROOTINO I (elements path) last
    none there allocated
  rw [← start] at begins there
  refine Spec.mono (namei_step roomy (by decide) tour (inUse_nil _) path (fun relative =>
    (relative absolute).elim) (base.mid p) begins) ?_
  intro found s post
  cases found with
  | none =>
    rw [(post.1.eq_walk none).1] at there
    cases there
  | some ip =>
    obtain ⟨J, name, walk, mid, -⟩ := post
    obtain ⟨same, recached⟩ := walk.eq_walk none
    grind

/-- What a process gets that looks at the file `path`: its type, and what `readi` gives. -/
def readPath (p : Fin NPROC) (path : List UInt8) (off n : Nat) :
    Exec State (Option (Itype × Int × List UInt8)) := do
  match ← namei p path with
  | none => return none
  | some ip =>
    ilock p ip
    let s ← get
    let (count, bytes) ← readi ip off n
    return some ((s.icache ip).din.type, count, bytes)

theorem contentOf_slice {blocks : Nat → Block} {din : Dinode} {off n size : Nat}
    (inside : off + n ≤ size) :
    contentOf blocks din off n = ((contentOf blocks din 0 size).drop off).take n := by
  have length : ∀ start count, (contentOf blocks din start count).length = count := by
    intro start count
    rw [contentOf, List.length_map, List.length_range]
  rw [contentOf_split blocks din (show off ≤ size by omega), contentOf_split blocks din
    (show n ≤ size - off by omega),
    Nat.zero_add, List.drop_append_of_le_length (by rw [length]), List.drop_eq_nil_of_le
    (by rw [length]),
    List.nil_append, List.take_append_of_le_length (by rw [length]), List.take_of_length_le
    (by rw [length])]

/-- A file of the image reads as it was given to mkfs. -/
theorem readPath_root (made : Made im files) (distinct : DistinctNames files) {k : Nat}
    {file : Source} (listed : files[k]? = some file)
    (legal : (targetName file.name).contains 47 = false)
    (nonempty : deref (targetName file.name) ≠ 0) {off n : Nat}
    (inside : off ≤ file.reads.flatten.length) (fits : off + n < 2 ^ 32) :
    Spec Stops.nothing (readPath p (47 :: targetName file.name) off n) (im.boot devsw)
      fun result _ =>
      result = some (.file, Int.ofNat (min n (file.reads.flatten.length - off)),
        (file.reads.flatten.drop off).take n) := by
  obtain ⟨free, entries⟩ := @boot_root im files devsw made
  have below : k < files.length := (List.getElem?_eq_some_iff.mp listed).1
  have at_ : ((im.boot devsw).world.entries ROOTINO)[2 + k]? = some (fileEntry (2 + k) file) := by
    grind [List.append_assoc, List.getElem?_append_right, List.getElem?_append_left,
      fileEntries_length, getElem?_fileEntries]
  have is : (fileEntry (2 + k) file).Is (targetName file.name) :=
    ⟨by simp [fileEntry], fieldString_strncpy _ _⟩
  have type := (made.files (2 + k) (by simp only [ROOTINO]; omega) (by omega)).1
  have walk := @walk_root im files devsw made distinct _ _ _ at_ is legal nonempty
  refine Spec.bind (namei_root made rfl walk (by rw [fileEntry, type]; decide)) ?_
  rintro _ s1 ⟨ip, rfl, mid1, cache, world1⟩
  have type1 : s1.world.type (2 + k) = .file := by
    rw [world1]
    exact type
  refine Spec.bind (ilock_step mid1 List.mem_cons_self none_locked fun untyped => ?_) ?_
  · cases type1.symm.trans untyped
  rintro _ s2 ⟨mid2, world2, -, -⟩
  refine Spec.bind_get ?_
  have sees := mid2.sees List.mem_cons_self List.mem_cons_self
  rw [← world2] at type1 world1
  have din : (s2.icache ip).din.type = .file := by
    rw [sees.din]
    exact type1
  have data : contentOf s2.blocks (s2.icache ip).din 0 (s2.icache ip).din.size =
    file.reads.flatten := by
    rw [← made.contents k file listed]
    have same : s2.world.data (2 + k) = (im.boot devsw).world.data (2 + k) := by rw [world1]
    have plain : ∀ {blocks : Nat → Block} {din : Dinode}, din.type = .file →
        fileBytes blocks din = contentOf blocks din 0 din.size := by
      grind [fileBytes]
    rw [sees.din] at din ⊢
    exact (plain din).symm.trans (same.trans (plain type))
  have size : (s2.icache ip).din.size = file.reads.flatten.length := by
    rw [← data, contentOf, List.length_map, List.length_range]
  refine Spec.bind (readi_clamped mid2.sane sees.used sees.valid rfl off n) ?_
  rintro result s3 ⟨rfl, read⟩
  refine Spec.pure ?_
  rw [read (by rw [din]; decide) (by omega) fits, din, size]
  rw [contentOf_slice (show off + min n (file.reads.flatten.length - off) ≤
    (s3.icache ip).din.size by omega), data, ← List.length_drop, ← List.take_eq_take_min]

end Root

/-- The kernel on the disk sees the files. -/
structure Agrees (d : Disk) (devsw : Int → Option Device) (files : List Source) : Prop where
  files : ∀ p file, file ∈ files → ∀ off n, off ≤ file.reads.flatten.length → off + n < 2 ^ 32 →
    ∃ s, readPath p (47 :: targetName file.name) off n (d.boot devsw) =
      .ok (some (.file, Int.ofNat (min n (file.reads.flatten.length - off)),
        (file.reads.flatten.drop off).take n), s)
  dots : ∀ p, ∀ name ∈ [[46], [46, 46]], ∃ ip s,
    namei p (47 :: name) (d.boot devsw) = .ok (some ip, s) ∧ (s.icache ip).dev = ROOTDEV ∧
      (s.icache ip).inum = ROOTINO
  bitmap : ∀ b, b < BPB → (d.bit (readsb (d.sectors 1)) b = true ↔
    b < nmeta ∨ ∃ key, owner (d.boot devsw).blocks (d.boot devsw).dinodes key = b ∧ b ≠ 0)

/-- For files that fit, with names that can be told apart, mkfs makes an image that the kernel
sees as these files. -/
theorem mkfs_agrees {files : List Source} (few : files.length < NINODES - 1)
    (legal : ∀ file ∈ files, (targetName file.name).contains 47 = false)
    (nonempty : ∀ file ∈ files, deref (targetName file.name) ≠ 0) (distinct : DistinctNames files)
    (sizes : ∀ file ∈ files, file.reads.flatten.length ≤ MAXFILE * BSIZE)
    (room : need files ≤ FSSIZE) :
    ∃ d, Disk.mkfs files = some d ∧ ∀ devsw, Agrees d devsw files := by
  have whole : ∀ file ∈ files, file.name.contains 47 = false := by
    intro file member
    have rest := legal file member
    unfold targetName at rest
    split at rest
    · rename_i underscore
      cases name : file.name with
      | nil => rfl
      | cons c tail =>
        rw [name] at underscore rest
        rw [List.contains_cons, Bool.or_eq_false_iff]
        refine ⟨?_, rest⟩
        rw [show c = 95 from underscore]
        rfl
    · exact rest
  obtain ⟨root, rooted⟩ := exists_rooted
  obtain ⟨last, filled, count⟩ := rooted.space few whole sizes room
  have made : mkfs files = some (fixRoot last) := by rw [rooted.mkfs, filled, Option.map_some]
  have fits : (fixRoot last).freeblock ≤ FSSIZE := count.le.trans room
  obtain ⟨d, written, packed, marked⟩ := (mkfs_within few).complete _ made fits
  generalize fixRoot last = im at made fits packed marked
  have ends := mkfs_made made few fits
  refine ⟨d, written, fun devsw => ?_⟩
  have boot := packed.boot marked devsw
  refine ⟨fun p file member off n inside small => ?_, fun p name member => ?_, fun b below => ?_⟩
  · obtain ⟨k, listed⟩ := List.mem_iff_getElem?.mp member
    obtain ⟨result, s, ran, same⟩ := (@readPath_root _ _ devsw p ends distinct _ _ listed
      (legal file member) (nonempty file member) _ _ inside small).total
    rw [boot, ran, same]
    exact ⟨s, rfl⟩
  · obtain ⟨free, entries⟩ := @boot_root im files devsw ends
    have allocated : (im.dinodes ROOTINO).type ≠ .free := by
      rw [ends.type]
      decide
    have walk : ((im.boot devsw).world.walk false ROOTINO (elements (47 :: name))).2 =
      some (ROOTINO, []) := by
      rcases List.mem_pair.mp member with rfl | rfl
      · exact @walk_root im files devsw ends distinct 0 ⟨ROOTINO, strncpy [46] DIRSIZ⟩ _
          (by rw [entries]; rfl) ⟨by decide, by decide⟩ (by decide) (by decide)
      · exact @walk_root im files devsw ends distinct 1 ⟨ROOTINO, strncpy [46, 46] DIRSIZ⟩ _
          (by rw [entries]; rfl) ⟨by decide, by decide⟩ (by decide) (by decide)
    obtain ⟨found, s, ran, ip, rfl, mid, -⟩ := (namei_root (p := p) ends rfl walk allocated).total
    rw [boot]
    have used : 0 < (s.icache ip).ref := mid.ref List.mem_cons_self
    exact ⟨ip, s, ran, (mid.sane.slots ip).device used, mid.names _ List.mem_cons_self⟩
  · have owned : Owned im.blocks im.dinodes (Mkfs.bitmap im) := (ends.sane devsw).owned
    have super : readsb (d.sectors 1) = sb := packed.readsb
    rw [super, marked b below, boot]
    by_cases inside : b < FSSIZE
    · exact owned.usedIff b inside
    · refine iff_of_false ?_ ?_
      · rw [decide_eq_true_eq]
        omega
      · rintro (small | ⟨key, same, nonzero⟩)
        · exact inside (Nat.lt_trans small (by decide))
        · have range := owned.inRange key
          change owner im.blocks im.dinodes key = b at same
          rw [same] at range
          exact inside (range nonzero).2

/-- A program, in two reads, and an empty file. -/
def twoFiles : List Source := [⟨[95, 99, 97, 116], [[1, 2], [3]]⟩, ⟨[82, 69, 65, 68, 77, 69], []⟩]

theorem mkfs_agrees_twoFiles :
    ∃ d, Disk.mkfs twoFiles = some d ∧ ∀ devsw, Agrees d devsw twoFiles :=
  mkfs_agrees (by decide) (by decide) (by decide) (by decide) (by decide) (by decide)

end Xv6.Mkfs
