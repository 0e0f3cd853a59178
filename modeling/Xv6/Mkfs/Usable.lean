import Xv6.Mkfs.Crowded

/- Which images the kernel can use: mkfs reads every block it hands out, so a disk that is full
stops it, but nothing stops it from numbering inodes beyond NINODES. -/
namespace Xv6.Mkfs

open Fs CString

/-- All numbers in the image are ones of the file system. -/
structure Usable (d : Disk) : Prop where
  numbered : ∀ j, ROOTINO ≤ j → j < d.freeinode → j < NINODES
  addrs : ∀ j, ROOTINO ≤ j → j < d.freeinode → ∀ k ≤ NDIRECT,
    addrField (d.inodeBytes sb j) k < FSSIZE
  indirect : ∀ j, ROOTINO ≤ j → j < d.freeinode → addrField (d.inodeBytes sb j) NDIRECT ≠ 0 →
    ∀ k < NINDIRECT, get32 (d.sectors (addrField (d.inodeBytes sb j) NDIRECT)) k < FSSIZE
  bitmap : ∀ b, b < BPB → d.bit sb b = true → b < FSSIZE

section Count

variable {d d' : Disk} {raw raw' : Block} {x : Nat} {p : List UInt8} {files : List Source}

theorem winode_freeinode {inum : Nat} {din : Block} (result : d.winode inum din = some d') :
    d'.freeinode = d.freeinode := by
  obtain ⟨buf, -, rfl⟩ := Option.map_eq_some_iff.mp result
  rfl

theorem entry_freeinode {k : Nat} (result : Disk.iappendBlock.entry d raw k = some (d', raw', x)) :
    d'.freeinode = d.freeinode := by
  obtain ⟨buf, -, same⟩ := Option.map_eq_some_iff.mp result
  split at same
  · cases same
    rfl
  · cases same
    rfl

theorem iappendBlock_freeinode {n : Nat}
    (result : d.iappendBlock raw n = some (d', raw', x)) : d'.freeinode = d.freeinode := by
  unfold Disk.iappendBlock at result
  split at result
  · grind
  · split at result
    · have same := entry_freeinode result
      exact same
    · exact entry_freeinode result

theorem iappendLoop_freeinode {fuel off off' : Nat}
    (result : Disk.iappendLoop fuel d raw off p = some (d', raw', off')) :
    d'.freeinode = d.freeinode := by
  induction fuel generalizing d raw off p with
  | zero =>
    cases result
    rfl
  | succ fuel ih =>
    rw [Disk.iappendLoop] at result
    split at result
    · cases result
      rfl
    split at result
    · obtain ⟨⟨d1, raw1, x⟩, block, result⟩ := Option.bind_eq_some_iff.mp result
      obtain ⟨buf, -, result⟩ := Option.bind_eq_some_iff.mp result
      have later : d'.freeinode = d1.freeinode := by
        have same := ih result
        exact same
      exact later.trans (iappendBlock_freeinode block)
    · cases result

theorem iappend_freeinode {X : Nat} (result : d.iappend X p = some d') :
    d'.freeinode = d.freeinode := by
  obtain ⟨raw, -, result⟩ := Option.bind_eq_some_iff.mp result
  obtain ⟨⟨d1, raw1, off⟩, looped, result⟩ := Option.bind_eq_some_iff.mp result
  exact (winode_freeinode result).trans (iappendLoop_freeinode looped)

theorem ialloc_freeinode {type : Itype} (result : d.ialloc type = some d') :
    d'.freeinode = d.freeinode + 1 := by
  have same := winode_freeinode result
  exact same

theorem addFile_freeinode {file : Source} (result : d.addFile file = some d') :
    d'.freeinode = d.freeinode + 1 := by
  rw [Disk.addFile] at result
  split at result
  · cases result
  · obtain ⟨d1, allocated, result⟩ := Option.bind_eq_some_iff.mp result
    obtain ⟨d2, entered, result⟩ := Option.bind_eq_some_iff.mp result
    have kept : (fun d : Disk => d.freeinode = d2.freeinode) d' :=
      Runs.run_preserves (fun d buf next _ same taken => (iappend_freeinode taken).trans same)
        (show Runs.Meets _ (fun _ _ => True) d2 _ from Runs.Meets.of_forall (fun _ _ _ => trivial)
        d2) result rfl
    rw [kept, iappend_freeinode entered, ialloc_freeinode allocated]

theorem addFiles_freeinode (result : Runs.run Disk.addFile d files = some d') :
    d'.freeinode = d.freeinode + files.length := by
  induction files generalizing d with
  | nil =>
    cases result
    rfl
  | cons file rest ih =>
    obtain ⟨next, taken, remaining⟩ := Runs.run_cons_some.mp result
    rw [ih remaining, addFile_freeinode taken, List.length_cons]
    omega

/-- Each file takes the next inode number, and nothing else does. -/
theorem mkfs_freeinode (made : Disk.mkfs files = some d) : d.freeinode = 2 + files.length := by
  obtain ⟨root, rooted⟩ := exists_rooted
  obtain ⟨d0, packed, disk⟩ := rooted.packed
  rw [disk] at made
  obtain ⟨d1, filled, made⟩ := Option.bind_eq_some_iff.mp made
  obtain ⟨d2, fixed, made⟩ := Option.bind_eq_some_iff.mp made
  obtain ⟨raw, -, fixed⟩ := Option.bind_eq_some_iff.mp fixed
  have last : d.freeinode = d2.freeinode := by
    rw [Disk.balloc] at made
    split at made
    · cases made
      rfl
    · cases made
  rw [last, winode_freeinode fixed, addFiles_freeinode filled, ← packed.freeinode, rooted.freeinode]

end Count

section Range

variable {d : Disk} {im : Image}

theorem Packed.usable (packed : Packed d im) (marked : Marked d im.freeblock)
    (owned : Owned im.blocks im.dinodes (bitmap im))
    (allocated : ∀ j, ROOTINO ≤ j → j < im.freeinode → j < NINODES ∧ (im.dinodes j).type ≠ .free) :
    Usable d := by
  have address : ∀ j n, ROOTINO ≤ j → j < im.freeinode → blockAddr im.blocks (im.dinodes j) n ≠ 0 →
      nmeta ≤ blockAddr im.blocks (im.dinodes j) n ∧ blockAddr im.blocks (im.dinodes j) n <
      FSSIZE := by
    intro j n lower upper some
    have range := owned.inRange (j, n)
    grind [owner_of_allocated]
  have below : ∀ j n, ROOTINO ≤ j → j < im.freeinode → blockAddr im.blocks (im.dinodes j) n <
    FSSIZE := by
    intro j n lower upper
    by_cases none : blockAddr im.blocks (im.dinodes j) n = 0
    · rw [none]
      decide
    · exact (address j n lower upper none).2
  have field : ∀ j, ROOTINO ≤ j → j < im.freeinode → ∀ k ≤ NDIRECT,
      (im.dinodes j).addrs k = addrField (d.inodeBytes sb j) k := by
    grind [dinode, dinodeOf_addrs]
  refine ⟨?_, ?_, ?_, ?_⟩
  · grind [freeinode]
  · intro j lower upper k inside
    rw [← packed.freeinode] at upper
    rw [← field j lower upper k inside]
    by_cases direct : k < NDIRECT
    · rw [← @blockAddr_direct im.blocks _ _ direct]
      exact below j k lower upper
    · have last : k = NDIRECT := by omega
      rw [last, ← @blockAddr_indirect im.blocks]
      exact below j MAXFILE lower upper
  · intro j lower upper some k inside
    rw [← packed.freeinode] at upper
    rw [← field j lower upper NDIRECT (Nat.le_refl _)] at some ⊢
    have range := address j MAXFILE lower upper
    rw [blockAddr_indirect] at range
    have entry := below j (NDIRECT + k) lower upper
    rw [blockAddr_entry (Nat.le_add_right _ _) (Nat.add_lt_add_left inside _) some,
      Nat.add_sub_cancel_left, ← packed.block (range some).1 (range some).2] at entry
    exact entry
  · intro b inside set
    rw [marked b inside, decide_eq_true_eq] at set
    exact Nat.lt_of_lt_of_le set packed.fits

end Range

/-- An image of mkfs has only numbers of the file system exactly if the files are few enough. -/
theorem mkfs_usable_iff {files : List Source} {d : Disk} (made : Disk.mkfs files = some d) :
    Usable d ↔ files.length < NINODES - 1 := by
  constructor
  · intro usable
    have count := mkfs_freeinode made
    have last := usable.numbered (1 + files.length) (by simp only [ROOTINO]; omega) (by omega)
    simp only [NINODES] at last ⊢
    omega
  · intro few
    obtain ⟨im, built, packed, marked⟩ := (mkfs_within few).sound d made
    have ends := mkfs_made built few packed.fits
    refine packed.usable marked (ends.sane fun _ => none).owned fun j lower upper => ?_
    rw [packed.freeinode, mkfs_freeinode made] at upper
    refine ⟨by simp only [NINODES] at few ⊢; omega, ?_⟩
    by_cases root : j = ROOTINO
    · rw [root, ends.type]
      decide
    · have file := ends.files j (by omega) upper
      rw [file.1]
      decide

theorem mkfs_usable_iff_oneFile :
    ∃ d, Disk.mkfs [⟨[95, 97], [[1, 2], [3]]⟩] = some d ∧ Usable d := by
  have made : (Disk.mkfs [⟨[95, 97], [[1, 2], [3]]⟩]).isSome = true := by decide +kernel
  obtain ⟨d, result⟩ := Option.isSome_iff_exists.mp made
  exact ⟨d, result, (mkfs_usable_iff result).mpr (by decide)⟩

/-- With NINODES - 1 empty files mkfs numbers an inode NINODES, and does not stop. -/
theorem mkfs_beyond_ninodes : ¬ ∀ files d, Disk.mkfs files = some d → Usable d := by
  intro always
  obtain ⟨root, rooted⟩ := exists_rooted
  have each : ∀ file ∈ List.replicate 198 (Source.mk [97] []), file = ⟨[97], []⟩ :=
    fun file member => List.eq_of_mem_replicate member
  obtain ⟨d, im, crowded, number, disk⟩ := rooted.crowded
    (show (List.replicate 198 (Source.mk [97] [])).length = _ from List.length_replicate)
    (fun file member => by rw [each file member]) (fun file member => by rw [each file member]; rfl)
  obtain ⟨d1, im1, added, crowded1, -⟩ := crowded.addFile (by omega) (by rw [number]; decide)
    (show [97].contains 47 = false from rfl)
  obtain ⟨d2, ended, -⟩ := finish_packed crowded1.packed crowded1.ok crowded1.type
  have made : Disk.mkfs (List.replicate 198 (Source.mk [97] []) ++ [⟨[97], []⟩]) = some d2 := by
    rw [disk, Runs.run, added, Option.bind_some, Runs.run_nil, Option.bind_some, ended]
  have last := (always _ _ made).numbered NINODES (by decide)
    (by rw [mkfs_freeinode made, List.length_append, List.length_replicate]; decide)
  exact Nat.lt_irrefl _ last

end Xv6.Mkfs
