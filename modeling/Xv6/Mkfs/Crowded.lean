import Mathlib.Algebra.BigOperators.Group.List.Basic
import Xv6.Mkfs.Packing

/- What mkfs does with more files than it has inodes for: the inodes from NINODES on go to the
rest of the last inode block, then to the block of the bitmap, and then over the first data
block, which is the one of the root directory. -/
namespace Xv6.Mkfs

open Fs CString

section Addresses

variable {im im' : Image} {din din' : Dinode} {k : Nat}

/-- A direct block stays where it is. -/
theorem iappendBlock_addr {n x : Nat} (direct : k < NDIRECT) (some : din.addrs k ≠ 0)
    (block : iappendBlock im din n = (im', din', x)) : din'.addrs k = din.addrs k := by
  have entry : ∀ {im : Image} {din : Dinode} {j : Nat}, iappendBlock.entry im din j =
    (im', din', x) → din' = din := by
    grind [iappendBlock.entry]
  unfold iappendBlock at block
  split at block
  · split at block
    · rename_i none
      cases block
      refine setAddr_of_ne _ _ ?_
      rintro rfl
      exact some none
    · cases block
      rfl
  · grind [setAddr_of_ne]

theorem iappendLoop_addr {fuel off off' : Nat} {p : List UInt8} (direct : k < NDIRECT)
    (some : din.addrs k ≠ 0) (result : iappendLoop fuel im din off p = .some (im', din', off')) :
    din'.addrs k = din.addrs k := by
  induction fuel generalizing im din off p with
  | zero =>
    cases result
    rfl
  | succ fuel ih =>
    rw [iappendLoop] at result
    split at result
    · cases result
      rfl
    · split at result
      · rcases block : iappendBlock im din (off / BSIZE) with ⟨im1, din1, x⟩
        rw [block] at result
        have same := iappendBlock_addr direct some block
        exact (ih (by rwa [same]) result).trans same
      · cases result

theorem iappend_addr {X : Nat} {p : List UInt8} (direct : k < NDIRECT)
    (some : (im.dinodes X).addrs k ≠ 0) (result : iappend im X p = .some im') :
    (im'.dinodes X).addrs k = (im.dinodes X).addrs k := by
  rw [iappend, Option.map_eq_some_iff] at result
  obtain ⟨⟨im1, din1, off⟩, looped, rfl⟩ := result
  have same := iappendLoop_addr direct some looped
  grind

end Addresses

section First

variable {im im' : Image} {ents : List Dirent} {data : Nat → List UInt8} {files : List Source}

/-- The first block of the root directory is the first data block. -/
def RootFirst (im : Image) : Prop := (im.dinodes ROOTINO).addrs 0 = nmeta

theorem RootFirst.entry {p : List UInt8} (first : RootFirst im)
    (result : iappend im ROOTINO p = some im') :
    RootFirst im' := by
  have same := iappend_addr (k := 0) (by decide) (by rw [first]; decide) result
  exact same.trans first

theorem Rooted.first (rooted : Rooted im) : RootFirst im := by
  obtain ⟨start, dot, -, -, -, dotdot⟩ := rooted.dots
  have placed : (iappend (ialloc blank .dir) ROOTINO
    (Dirent.bytes ⟨ROOTINO, strncpy [46] DIRSIZ⟩)).map
      (fun im => (im.dinodes ROOTINO).addrs 0) = some nmeta := by decide
  rw [dot, Option.map_some, Option.some.injEq] at placed
  exact RootFirst.entry placed dotdot

theorem RootFirst.file {name : List UInt8} (first : RootFirst im) (started : ROOTINO < im.freeinode)
    (result : addFile im ⟨name, []⟩ = some im') : RootFirst im' := by
  rw [addFile] at result
  split at result
  · cases result
  · obtain ⟨middle, entered, same⟩ := Option.bind_eq_some_iff.mp result
    cases same
    have root : RootFirst (ialloc im .file) := by
      change (Function.update im.dinodes im.freeinode _ ROOTINO).addrs 0 = nmeta
      rw [Function.update_of_ne (Nat.ne_of_lt started)]
      exact first
    exact root.entry entered

/-- Files without content keep it. -/
theorem RootFirst.run (first : RootFirst im) (empty : ∀ file ∈ files, file.reads = [])
    (built : Built im ents data) (few : im.freeinode + files.length ≤ NINODES)
    (result : Runs.run addFile im files = some im') (room : im'.freeblock ≤ FSSIZE) :
    RootFirst im' := by
  induction files generalizing im ents data with
  | nil =>
    cases result
    exact first
  | cons file rest ih =>
    obtain ⟨next, taken, remaining⟩ := Runs.run_cons_some.mp result
    rw [List.length_cons] at few
    obtain ⟨built1, count⟩ := built.file (by omega) taken ((addFiles_grow remaining).trans room)
    have none : file.reads = [] := empty file List.mem_cons_self
    obtain ⟨name, reads⟩ := file
    grind [file, Built.started, List.mem_cons_of_mem]

end First

section Beyond

variable {d : Disk} {im : Image}

/-- Inodes from NINODES on are stored where the kernel sees no inode, up to the first data block. -/
theorem Packed.winode_beyond (packed : Packed d im) {inum : Nat} (beyond : NINODES ≤ inum)
    (inside : inum < 256) (din : Block) : ∃ d', d.winode inum din = some d' ∧ Packed d' im := by
  have block : 38 ≤ IBLOCK inum sb ∧ IBLOCK inum sb < 40 := by
    simp only [IBLOCK, sb, IPB, BSIZE, DINODESIZE, LOGSIZE, MAXOPBLOCKS, NINODES] at beyond ⊢
    omega
  have small : IBLOCK inum sb < FSSIZE := by
    simp only [FSSIZE]
    omega
  refine ⟨_, by rw [Disk.winode, rsect_some packed.length small]; rfl, ?_⟩
  refine packed.wrote small (by omega) (fun j inode => ?_) (fun _ _ => rfl) (fun b data => ?_)
    fun _ _ => rfl
  · by_cases here : IBLOCK j sb = IBLOCK inum sb
    · rw [packed.dinode inode]
      refine dinodeOf_congr fun k short => ?_
      rw [Disk.inodeBytes, Disk.inodeBytes, wsect_sectors small, here, Function.update_self,
        copyInode, if_neg (inode_offset_ne (by omega) here short)]
    · exact packed.dinode_wsect small here inode
  · have large : 40 ≤ b := data.1
    rw [Function.update_of_ne (by omega), packed.block data.1 data.2]

/-- The first data block with an inode in it. -/
def Image.spilled (im : Image) (inum : Nat) (din : Block) : Image :=
  { im with blocks := Function.update im.blocks nmeta (copyInode (im.blocks nmeta) (inum % IPB *
    DINODESIZE) din) }

theorem Packed.winode_spilled (packed : Packed d im) {inum : Nat} (beyond : 256 ≤ inum)
    (inside : inum < 288) (din : Block) :
    ∃ d', d.winode inum din = some d' ∧ Packed d' (im.spilled inum din) := by
  have block : IBLOCK inum sb = nmeta := by
    change inum / (4096 / 128) + (2 + 10 * 3) = 40
    omega
  have small : nmeta < FSSIZE := by decide
  refine ⟨_, by rw [Disk.winode, block, rsect_some packed.length small]; rfl, ?_⟩
  rw [packed.block (Nat.le_refl _) small]
  exact packed.wsect (Nat.le_refl _) small _

/-- The root directory keeps its blocks, whatever is in the first of them. -/
theorem ImageOk.spilled (ok : ImageOk im) (typed : (im.dinodes ROOTINO).type ≠ .free)
    (first : RootFirst im) (inum : Nat) (din : Block) : ImageOk (im.spilled inum din) := by
  have owned : Owned im.blocks im.dinodes (bitmap im) := ok.sane.owned
  have own : owner im.blocks im.dinodes (ROOTINO, 0) = nmeta := by
    rw [owner_of_allocated typed, blockAddr_direct (by decide)]
    exact first
  have marked := owned.marked (show owner im.blocks im.dinodes (ROOTINO, 0) ≠ 0 by rw [own]; decide)
  rw [own, bitmap, decide_eq_true_eq] at marked
  have same := owned.owner_data (by decide) own
    (copyInode (im.blocks nmeta) (inum % IPB * DINODESIZE) din)
  refine ⟨⟨fun b beyond => ?_, ok.fresh.reserved⟩, fun _ => slotOk_unused rfl rfl, ?_,
    fun j allocated => ?_, ok.sane.numbered⟩
  · change im.freeblock ≤ b at beyond
    change Function.update im.blocks nmeta _ b = _
    rw [Function.update_of_ne (by omega)]
    exact ok.fresh.zero b beyond
  · change Ownership.Exact nmeta FSSIZE (owner (Function.update im.blocks nmeta _) im.dinodes)
      (bitmap im)
    rw [same]
    exact owned
  · change (im.dinodes j).type ≠ .free at allocated
    have sized : Sized im.blocks (im.dinodes j) := ok.sane.sized j allocated
    refine ⟨sized.bounded, sized.shaped.bound, fun n inside => ?_, sized.shaped.indirect⟩
    have key := congrFun same (j, n)
    rw [owner_of_allocated allocated, owner_of_allocated allocated] at key
    change blockAddr (Function.update im.blocks nmeta _) (im.dinodes j) n ≠ 0 ↔ _
    rw [key]
    exact sized.shaped.data n inside

end Beyond

section Crowd

/-- The image of empty files only, with one entry of the root directory for each inode number. -/
structure Crowded (d : Disk) (im : Image) : Prop where
  packed : Packed d im
  ok : ImageOk im
  type : (im.dinodes ROOTINO).type = .dir
  size : (im.dinodes ROOTINO).size = DIRENTSIZE * im.freeinode
  first : RootFirst im
  freeblock : im.freeblock = nmeta + rootHeld im.freeinode

variable {d : Disk} {im : Image} {name : List UInt8}

/-- The image after `ialloc` of an inode number that is too large. -/
def Image.taken (im : Image) : Image :=
  { (if im.freeinode < 256 then im else im.spilled im.freeinode (Disk.newInode .file)) with
    freeinode := im.freeinode + 1 }

theorem Crowded.ialloc (crowded : Crowded d im) (beyond : NINODES ≤ im.freeinode)
    (inside : im.freeinode < 288) :
    ∃ d', d.ialloc .file = some d' ∧ Packed d' im.taken ∧ ImageOk im.taken := by
  have number := crowded.packed.freeinode
  have typed : (im.dinodes ROOTINO).type ≠ .free := by
    rw [crowded.type]
    decide
  have counted : ∀ {d : Disk} {im : Image}, Packed d im →
      Packed { d with freeinode := d.freeinode + 1 } { im with freeinode := im.freeinode + 1 } := by
    intro d im packed
    refine ⟨?_, packed.length, packed.room, packed.superblock⟩
    rw [← packed.image]
    rfl
  unfold Image.taken
  split
  · obtain ⟨d', written, packed'⟩ := (counted crowded.packed).winode_beyond
      (show NINODES ≤ d.freeinode by omega) (by omega)
      (Disk.newInode .file)
    exact ⟨d', written, packed', ⟨⟨crowded.ok.fresh.zero, crowded.ok.fresh.reserved⟩,
      crowded.ok.sane⟩⟩
  · obtain ⟨d', written, packed'⟩ := (counted crowded.packed).winode_spilled
      (show 256 ≤ d.freeinode by omega) (by omega)
      (Disk.newInode .file)
    have ok := crowded.ok.spilled typed crowded.first im.freeinode (Disk.newInode .file)
    refine ⟨d', written, ?_, ⟨⟨ok.fresh.zero, ok.fresh.reserved⟩, ok.sane⟩⟩
    rw [← number] at packed'
    exact packed'

/-- An empty file after as many files as there are inodes is added like the others. -/
theorem Crowded.addFile (crowded : Crowded d im) (beyond : NINODES ≤ im.freeinode)
    (inside : im.freeinode < 288) (legal : name.contains 47 = false) :
    ∃ d' im', d.addFile ⟨name, []⟩ = some d' ∧ Crowded d' im' ∧ im'.freeinode = im.freeinode + 1 ∧
      ∀ k, k < DIRENTSIZE * NINODES → im'.blocks nmeta k = im.taken.blocks nmeta k := by
  obtain ⟨d1, allocated, packed, ok⟩ := crowded.ialloc beyond inside
  have same : im.taken.dinodes = im.dinodes := by
    unfold Image.taken
    split <;> rfl
  have blocks : im.taken.freeblock = im.freeblock := by
    unfold Image.taken
    split <;> rfl
  have typed : (im.taken.dinodes ROOTINO).type ≠ .free := by
    rw [same, crowded.type]
    decide
  have width : (Dirent.bytes ⟨d.freeinode, strncpy (targetName name) DIRSIZ⟩).length = DIRENTSIZE :=
    by
    simp only [Dirent.bytes, List.length_cons, strncpy_length, DIRENTSIZE]
    omega
  have entry := iappend_space ok typed (p :=
    Dirent.bytes ⟨d.freeinode, strncpy (targetName name) DIRSIZ⟩)
  rw [width, same, blocks, crowded.size, ← Nat.mul_succ] at entry
  change _ → _ + rootHeld (im.freeinode + 1) ≤ FSSIZE + rootHeld im.freeinode → ∃ im' : Image, _ ∧
    im'.freeblock + rootHeld im.freeinode = _ + rootHeld (im.freeinode + 1) at entry
  have free := crowded.freeblock
  have few : nmeta + rootHeld (im.freeinode + 1) ≤ FSSIZE :=
    (Nat.add_le_add_left (rootHeld_mono inside) nmeta).trans (by decide)
  have long : DIRENTSIZE * (im.freeinode + 1) ≤ MAXFILE * BSIZE :=
    (Nat.mul_le_mul_left DIRENTSIZE inside).trans (by decide)
  obtain ⟨im', entered, count⟩ := entry long (by omega)
  have small : im'.freeblock ≤ FSSIZE := by omega
  obtain ⟨ok', grown⟩ := iappend_grown ok typed entered small
  obtain ⟨d', entered', packed'⟩ := (iappend_within packed ok (by decide) typed).complete im'
    entered small
  have number : im'.freeinode = im.freeinode + 1 := grown.freeinode
  have start : RootFirst im.taken := by
    unfold RootFirst
    rw [same]
    exact crowded.first
  have first := start.entry entered
  refine ⟨d', im', ?_, ⟨packed', ok', ?_, ?_, first, by rw [number]; omega⟩, number,
    fun k below => ?_⟩
  · rw [Disk.addFile, if_neg (by rw [legal]; decide), allocated, Option.bind_some, entered']
    rfl
  · rw [grown.dinode, same]
    exact crowded.type
  · rw [grown.dinode, same, width, number]
    simp only [crowded.size, Nat.mul_succ]
  · have short : k < (im.taken.dinodes ROOTINO).size := by
      rw [same, crowded.size]
      exact Nat.lt_of_lt_of_le below (Nat.mul_le_mul_left DIRENTSIZE beyond)
    have kept := grown.outside k short
    have block : k / BSIZE = 0 := Nat.div_eq_of_lt (Nat.lt_trans below (by decide))
    have byte : k % BSIZE = k := Nat.mod_eq_of_lt (Nat.lt_trans below (by decide))
    rw [byteAt, byteAt, block, byte, blockAddr_direct (by decide), blockAddr_direct (by decide),
      first, start] at kept
    exact kept

theorem Crowded.run {files : List Source} (crowded : Crowded d im) (beyond : NINODES ≤ im.freeinode)
    (inside : im.freeinode + files.length ≤ 288) (empty : ∀ file ∈ files, file.reads = [])
    (legal : ∀ file ∈ files, file.name.contains 47 = false) :
    ∃ d' im', Runs.run Disk.addFile d files = some d' ∧ Crowded d' im' ∧
      im'.freeinode = im.freeinode + files.length := by
  induction files generalizing d im with
  | nil => exact ⟨d, im, rfl, crowded, rfl⟩
  | cons file rest ih =>
    rw [List.length_cons] at inside ⊢
    have none : file.reads = [] := empty file List.mem_cons_self
    have plain := legal file List.mem_cons_self
    obtain ⟨name, reads⟩ := file
    subst none
    obtain ⟨d1, im1, added, crowded1, number, -⟩ := crowded.addFile beyond (by omega) plain
    obtain ⟨d2, im2, ran, crowded2, total⟩ := ih crowded1 (by omega) (by omega)
      (fun other member => empty other (List.mem_cons_of_mem _ member))
      fun other member => legal other (List.mem_cons_of_mem _ member)
    exact ⟨d2, im2, Runs.run_cons_some.mpr ⟨d1, added, ran⟩, crowded2, by omega⟩

theorem taken_blocks (beyond : 256 ≤ im.freeinode) : im.taken.blocks nmeta =
    copyInode (im.blocks nmeta) (im.freeinode % IPB * DINODESIZE) (Disk.newInode .file) := by
  rw [Image.taken, if_neg (Nat.not_lt_of_le beyond)]
  simp only [Image.spilled, Function.update_self]

/-- The inodes 256 and 257 lie over the entries 0 to 15 of the root directory. -/
theorem Crowded.overwritten {other : List UInt8} (crowded : Crowded d im)
    (number : im.freeinode = 256) (legal : name.contains 47 = false)
    (legal' : other.contains 47 = false) :
    ∃ d' im', Runs.run Disk.addFile d [⟨name, []⟩, ⟨other, []⟩] = some d' ∧ Crowded d' im' ∧
      im'.freeinode = 258 ∧
      ∀ m ∈ [0, 8], ∀ k, k < DIRENTSIZE → im'.blocks nmeta (DIRENTSIZE * m + k) =
        Disk.newInode .file k := by
  obtain ⟨d1, im1, added1, crowded1, number1, bytes1⟩ := crowded.addFile (by rw [number]; decide)
    (by rw [number]; decide) legal
  rw [number] at number1
  obtain ⟨d2, im2, added2, crowded2, number2, bytes2⟩ := crowded1.addFile (by rw [number1]; decide)
    (by rw [number1]; decide) legal'
  rw [taken_blocks (Nat.le_of_eq number.symm), number] at bytes1
  rw [taken_blocks (by omega), number1] at bytes2
  rw [number1] at number2
  refine ⟨d2, im2, Runs.run_cons_some.mpr ⟨d1, added1, Runs.run_cons_some.mpr ⟨d2, added2, rfl⟩⟩,
    crowded2, number2, fun m member k below => ?_⟩
  change k < 16 at below
  change ∀ k, k < 3200 → im1.blocks nmeta k = copyInode (im.blocks nmeta) 0 (Disk.newInode .file)
    k at bytes1
  change ∀ k, k < 3200 → im2.blocks nmeta k = copyInode (im1.blocks nmeta) 128 (Disk.newInode .file)
    k at bytes2
  rcases List.mem_pair.mp member with rfl | rfl
  · rw [Nat.mul_zero, Nat.zero_add, bytes2 k (by omega), copyInode, if_neg (by omega),
      bytes1 k (by omega), copyInode,
      if_pos ⟨Nat.zero_le k, by simp only [DINODESIZE]; omega⟩, Nat.sub_zero]
  · change im2.blocks nmeta (128 + k) = _
    rw [bytes2 _ (by omega), copyInode, if_pos
      ⟨Nat.le_add_right _ _, by simp only [DINODESIZE]; omega⟩, Nat.add_sub_cancel_left]

/-- The first NINODES - 2 files take all inodes. -/
theorem Rooted.crowded {files : List Source} (rooted : Rooted im)
    (length : files.length = NINODES - 2) (empty : ∀ file ∈ files, file.reads = [])
    (legal : ∀ file ∈ files, file.name.contains 47 = false) :
    ∃ d im, Crowded d im ∧ im.freeinode = NINODES ∧ ∀ more, Disk.mkfs (files ++ more) =
      (Runs.run Disk.addFile d more).bind fun d => d.fixRoot.bind fun d =>
        d.balloc d.freeblock := by
  obtain ⟨d, packed, disk⟩ := rooted.packed
  have two := rooted.freeinode
  have none : ∀ file ∈ files, fileHeld file = 0 := by
    intro file member
    rw [fileHeld, empty file member]
    rfl
  have small : need files = nmeta + rootHeld NINODES := by
    have zero : (files.map fileHeld).sum = 0 := by
      refine List.sum_eq_zero fun count member => ?_
      obtain ⟨file, there, rfl⟩ := List.mem_map.mp member
      exact none file there
    rw [need, zero, length]
    rfl
  obtain ⟨im', filled, count⟩ := rooted.space (by rw [length]; decide) legal
    (fun file member => by rw [empty file member]; decide) (by rw [small]; decide)
  have room : im'.freeblock ≤ FSSIZE := by
    rw [count, small]
    decide
  have enough : im.freeinode + files.length ≤ NINODES := by
    rw [two, length]
    decide
  obtain ⟨d', filled', packed'⟩ := (addFiles_within packed rooted.built enough).complete im'
    filled room
  obtain ⟨data, built, number, -⟩ := rooted.built.run enough filled room
  rw [two, length] at number
  have entries : (rootEntries ++ fileEntries im.freeinode files).length = NINODES := by
    rw [List.length_append, fileEntries_length, length]
    rfl
  have full : im'.freeinode = NINODES := number
  refine ⟨d', im', ⟨packed', built.ok, built.type, ?_, rooted.first.run empty rooted.built enough
    filled room, ?_⟩, full, fun more => ?_⟩
  · rw [built.size, entries, full]
  · rw [count, small, full]
  · rw [disk, Runs.run_append, filled', Option.bind_some]

end Crowd

end Xv6.Mkfs
