import Xv6.Lib.Within
import Xv6.Mkfs.Sectors
import Xv6.Mkfs.Space

/- The bytes that mkfs writes hold the image: what it reads back from an inode block, a data
block or the bitmap is what it put there, so mkfs on sectors does what mkfs does on inodes and
blocks, as long as the blocks are on the disk. -/
namespace Xv6.Mkfs

open Fs CString

section Fields

variable {din other : Block} {v : Nat}

theorem get16_set32 {i off : Nat} (v : Nat) (outside : off + 2 ≤ 4 * i ∨ 4 * i + 4 ≤ off) :
    get16 (set32 din i v) off = get16 din off := by
  have byte : ∀ k < 2, set32 din i v (off + k) = din (off + k) := by
    intro k small
    refine overwrite_outside _ _ _ _ ?_
    simp only [bytes32, List.length_cons, List.length_nil]
    omega
  have first := byte 0 (by omega)
  rw [Nat.add_zero] at first
  rw [get16, get16, first, byte 1 (by omega)]

/-- The inode is in its first DINODESIZE bytes. -/
theorem dinodeOf_congr (same : ∀ k, k < DINODESIZE → other k = din k) :
    dinodeOf other = dinodeOf din := by
  have short : ∀ off, off + 2 ≤ DINODESIZE → get16 other off = get16 din off := by grind [get16]
  have long : ∀ i, 4 * i + 4 ≤ DINODESIZE → get32 other i = get32 din i := by grind [get32]
  have addrs : (fun k => if k ≤ NDIRECT then addrField other k else 0) =
      fun k => if k ≤ NDIRECT then addrField din k else 0 := by
    funext k
    split
    · rename_i inside
      refine long _ ?_
      grind
    · rfl
  grind [dinodeOf, sizeField]

theorem dinodeOf_setAddrField {k : Nat} (inside : k ≤ NDIRECT) (fits : v < 2 ^ 32) :
    dinodeOf (setAddrField din k v) = (dinodeOf din).setAddr k v := by
  have short : ∀ off, off + 2 ≤ 20 → get16 (setAddrField din k v) off = get16 din off := by
    intro off below
    exact get16_set32 v (by omega)
  have size : sizeField (setAddrField din k v) = sizeField din := get32_set32_of_ne _ _ (by omega)
  have addrs : (fun j => if j ≤ NDIRECT then addrField (setAddrField din k v) j else 0) =
      Function.update (fun j => if j ≤ NDIRECT then addrField din j else 0) k v := by
    funext j
    by_cases here : j = k
    · subst here
      rw [Function.update_self, if_pos inside]
      exact get32_set32_self _ _ _ fits
    · rw [Function.update_of_ne here]
      split
      · exact get32_set32_of_ne _ _ (by omega)
      · rfl
  grind [dinodeOf, Dinode.setAddr]

theorem addrField_setAddrField {k : Nat} (fits : v < 2 ^ 32) :
    addrField (setAddrField din k v) k = v :=
  get32_set32_self _ _ _ fits

theorem dinodeOf_setSize (fits : v < 2 ^ 32) :
    dinodeOf (setSize din v) = { dinodeOf din with size := v } := by
  have short : ∀ off, off + 2 ≤ 8 ∨ 12 ≤ off → get16 (setSize din v) off = get16 din off := by
    intro off outside
    exact get16_set32 v (by omega)
  have size : sizeField (setSize din v) = v := get32_set32_self _ _ _ fits
  have addrs : ∀ j, addrField (setSize din v) j = addrField din j := by
    intro j
    exact get32_set32_of_ne _ _ (by omega)
  grind [dinodeOf]

theorem dinodeOf_zero : dinodeOf (fun _ => 0) = Dinode.zero := by
  have short : ∀ off, get16 (fun _ => 0) off = 0 := fun _ => rfl
  simp only [dinodeOf, sizeField, addrField, get32_zero, ite_self, short]
  rfl

theorem dinodeOf_newInode (type : Itype) :
    dinodeOf (Disk.newInode type) = { Dinode.zero with type := type, nlink := 1 } := by
  have addrs : ∀ k, addrField (Disk.newInode type) k = 0 := by
    intro k
    have zero : ∀ j, 8 ≤ j → Disk.newInode type j = 0 := by
      intro j large
      rw [Disk.newInode, overwrite_outside _ _ _ _ (Or.inr large),
        overwrite_outside _ _ _ _ (Or.inr (show 0 + 2 ≤ j by omega))]
    rw [addrField, get32, zero _ (by omega), zero _ (by omega), zero _ (by omega),
      zero _ (by omega)]
    rfl
  have first : typeOf (get16 (Disk.newInode type) 0) = type := by cases type <;> decide +kernel
  have link : get16 (Disk.newInode type) 6 = 1 := by cases type <;> decide +kernel
  have size : sizeField (Disk.newInode type) = 0 := by cases type <;> decide +kernel
  have rest : ∀ off ∈ [2, 4, 12, 14, 16], get16 (Disk.newInode type) off = 0 := by
    cases type <;> decide +kernel
  simp only [dinodeOf, addrs, ite_self, first, link, size, rest 2 (by decide), rest 4 (by decide),
    rest 12 (by decide), rest 14 (by decide), rest 16 (by decide)]
  rfl

end Fields

/-- The disk holds the image. -/
structure Packed (d : Disk) (im : Image) : Prop where
  image : d.image sb = im
  length : d.length = FSSIZE
  room : d.freeblock ≤ FSSIZE
  superblock : d.sectors 1 = overwrite (fun _ => 0) 0 sb.bytes

section Sectors

variable {d : Disk} {im : Image} {sec j : Nat} {b inum : Nat} {buf : Block}

theorem lseek_small (small : sec ≤ FSSIZE) : lseek sec = sec := by
  simp only [lseek, FSSIZE, BSIZE] at small ⊢
  omega

theorem IBLOCK_range (inside : j < NINODES) : 32 ≤ IBLOCK j sb ∧ IBLOCK j sb < 39 := by
  simp only [IBLOCK, sb, IPB, BSIZE, DINODESIZE, LOGSIZE, MAXOPBLOCKS, NINODES] at inside ⊢
  omega

theorem rsect_some (length : d.length = FSSIZE) (inside : sec < FSSIZE) :
    d.rsect sec = some (d.sectors sec) := by
  rw [Disk.rsect, lseek_small (Nat.le_of_lt inside), length, if_pos inside]

theorem rsect_end (length : d.length = FSSIZE) : d.rsect FSSIZE = none := by
  rw [Disk.rsect, lseek_small (Nat.le_refl _), length, if_neg (Nat.lt_irrefl _)]

theorem wsect_sectors (inside : sec < FSSIZE) (buf : Block) :
    (d.wsect sec buf).sectors = Function.update d.sectors sec buf := by
  rw [Disk.wsect, lseek_small (Nat.le_of_lt inside)]

theorem wsect_length (length : d.length = FSSIZE) (inside : sec < FSSIZE) (buf : Block) :
    (d.wsect sec buf).length = FSSIZE := by
  rw [Disk.wsect, lseek_small (Nat.le_of_lt inside), length]
  exact Nat.max_eq_left inside

theorem Packed.freeblock (packed : Packed d im) : im.freeblock = d.freeblock := by
  rw [← packed.image]
  rfl

theorem Packed.fits (packed : Packed d im) : im.freeblock ≤ FSSIZE := by
  rw [packed.freeblock]
  exact packed.room

theorem Packed.freeinode (packed : Packed d im) : im.freeinode = d.freeinode := by
  rw [← packed.image]
  rfl

theorem Packed.dinode (packed : Packed d im) (inside : j < NINODES) :
    im.dinodes j = dinodeOf (d.inodeBytes sb j) := by
  rw [← packed.image]
  exact if_pos inside

theorem Packed.block (packed : Packed d im) (lower : nmeta ≤ b) (upper : b < FSSIZE) :
    d.sectors b = im.blocks b := by
  rw [← packed.image]
  exact (if_pos ⟨lower, upper⟩).symm

/-- A sector is written; `table` and `blocks` are what the disk then holds. -/
theorem Packed.wrote (packed : Packed d im) (inside : sec < FSSIZE) (apart : sec ≠ 1)
    {table : Nat → Dinode} {blocks : Nat → Block}
    (dinodes : ∀ j, j < NINODES → dinodeOf ((d.wsect sec buf).inodeBytes sb j) = table j)
    (others : ∀ j, ¬ j < NINODES → table j = im.dinodes j)
    (content : ∀ b, nmeta ≤ b ∧ b < FSSIZE → Function.update d.sectors sec buf b = blocks b)
    (outside : ∀ b, ¬ (nmeta ≤ b ∧ b < FSSIZE) → blocks b = im.blocks b) :
    Packed (d.wsect sec buf) { im with dinodes := table, blocks := blocks } := by
  refine ⟨?_, wsect_length packed.length inside buf, packed.room, ?_⟩
  · have first : ((d.wsect sec buf).image sb).dinodes = table := by
      funext j
      by_cases inode : j < NINODES
      · exact (if_pos inode).trans (dinodes j inode)
      · rw [others j inode, ← packed.image]
        exact (if_neg inode).trans (if_neg inode).symm
    have second : ((d.wsect sec buf).image sb).blocks = blocks := by
      funext b
      by_cases data : nmeta ≤ b ∧ b < FSSIZE
      · rw [← content b data, ← wsect_sectors inside buf]
        exact if_pos data
      · rw [outside b data, ← packed.image]
        exact (if_neg data).trans (if_neg data).symm
    rw [← first, ← second, packed.freeinode, packed.freeblock]
    rfl
  · rw [wsect_sectors inside, Function.update_of_ne apart.symm]
    exact packed.superblock

/-- The inodes in other sectors stay. -/
theorem Packed.dinode_wsect (packed : Packed d im) (inside : sec < FSSIZE)
    (apart : IBLOCK j sb ≠ sec) (inode : j < NINODES) :
    dinodeOf ((d.wsect sec buf).inodeBytes sb j) = im.dinodes j := by
  rw [packed.dinode inode]
  unfold Disk.inodeBytes
  rw [wsect_sectors inside, Function.update_of_ne apart]

/-- A data block is written. -/
theorem Packed.wsect (packed : Packed d im) (lower : nmeta ≤ b) (upper : b < FSSIZE) (buf : Block) :
    Packed (d.wsect b buf) { im with blocks := Function.update im.blocks b buf } := by
  have large : 40 ≤ b := lower
  refine packed.wrote upper (by omega) (fun j inode => ?_) (fun _ _ => rfl) (fun other data => ?_)
    fun other data => ?_
  · have range := IBLOCK_range inode
    exact packed.dinode_wsect upper (by omega) inode
  · grind [Function.update_self, Function.update_of_ne, block]
  · grind

theorem rinode_some (packed : Packed d im) (inside : inum < NINODES) :
    d.rinode inum = some (d.inodeBytes sb inum) := by
  have range := IBLOCK_range inside
  rw [Disk.rinode, rsect_some packed.length (by simp only [FSSIZE]; omega)]
  rfl

/-- The place of an inode in its block. -/
theorem inode_offset_ne {i : Nat} (apart : j ≠ i) (block : IBLOCK j sb = IBLOCK i sb) {k : Nat}
    (inside : k < DINODESIZE) : ¬ (i % IPB * DINODESIZE ≤ j % IPB * DINODESIZE + k ∧
      j % IPB * DINODESIZE + k < i % IPB * DINODESIZE + DINODESIZE) := by
  simp only [IBLOCK, IPB, BSIZE, DINODESIZE] at block inside ⊢
  omega

/-- An inode is written, and the others in its block stay. -/
theorem Packed.winode (packed : Packed d im) (inside : inum < NINODES) (din : Block) :
    ∃ d', d.winode inum din = some d' ∧
      Packed d' { im with dinodes := Function.update im.dinodes inum (dinodeOf din) } := by
  have range := IBLOCK_range inside
  have small : IBLOCK inum sb < FSSIZE := by
    simp only [FSSIZE]
    omega
  refine ⟨_, by rw [Disk.winode, rsect_some packed.length small]; rfl, ?_⟩
  refine packed.wrote small (by omega) (fun j inode => ?_) (fun j beyond => ?_) (fun b data => ?_)
    fun _ _ => rfl
  · by_cases here : j = inum
    · subst here
      rw [Function.update_self]
      refine dinodeOf_congr fun k short => ?_
      rw [Disk.inodeBytes, wsect_sectors small, Function.update_self, copyInode,
        if_pos ⟨Nat.le_add_right _ _, by omega⟩, Nat.add_sub_cancel_left]
    · rw [Function.update_of_ne here]
      by_cases block : IBLOCK j sb = IBLOCK inum sb
      · rw [packed.dinode inode]
        refine dinodeOf_congr fun k short => ?_
        rw [Disk.inodeBytes, Disk.inodeBytes, wsect_sectors small, block, Function.update_self,
          copyInode, if_neg (inode_offset_ne here block short)]
      · exact packed.dinode_wsect small block inode
  · grind
  · have large : 40 ≤ b := data.1
    rw [Function.update_of_ne (by omega), packed.block data.1 data.2]

theorem Packed.claim (packed : Packed d im) (below : d.freeblock < FSSIZE) :
    Packed { d with freeblock := d.freeblock + 1 } { im with freeblock := im.freeblock + 1 } := by
  refine ⟨?_, packed.length, below, packed.superblock⟩
  rw [← packed.image]
  rfl

end Sectors

section Block

variable {d : Disk} {im : Image} {raw : Block} {X n : Nat} {din : Dinode} {off count : Nat}

/-- All blocks handed out are on the disk. -/
def Fits (im : Image) : Prop := im.freeblock ≤ FSSIZE

/-- The block that a round of `iappend` reads before it writes it. -/
def readBlock (place : Disk × Block × Nat) : Option (Disk × Block × Nat × Block) :=
  (place.1.rsect place.2.2).map fun buf => (place.1, place.2.1, place.2.2, buf)

/-- A round has read the block it writes to. -/
structure AtBlock (found : Disk × Block × Nat × Block) (place : Image × Dinode × Nat) : Prop where
  packed : Packed found.1 place.1
  din : dinodeOf found.2.1 = place.2.1
  block : found.2.2.1 = place.2.2
  content : found.2.2.2 = place.1.blocks place.2.2
  lower : nmeta ≤ place.2.2
  upper : place.2.2 < FSSIZE

theorem readBlock_within (packed : Packed d im) (same : dinodeOf raw = din) {x : Nat}
    (lower : nmeta ≤ x) (upper : x < FSSIZE) :
    Within (fun place => Fits place.1) AtBlock (readBlock (d, raw, x)) (some (im, din, x)) := by
  rw [readBlock, rsect_some packed.length upper]
  exact Within.some ⟨packed, same, rfl, packed.block lower upper, lower, upper⟩

/-- The block behind the last one cannot be read. -/
theorem readBlock_end (length : d.length = FSSIZE) {place : Image × Dinode × Nat}
    (more : FSSIZE < place.1.freeblock) :
    Within (fun place => Fits place.1) AtBlock (readBlock (d, raw, FSSIZE)) (some place) := by
  rw [readBlock, rsect_end length]
  exact Within.given_up (Nat.not_le_of_lt more)

theorem dinodeOf_addrs {k : Nat} (inside : k ≤ NDIRECT) :
    (dinodeOf raw).addrs k = addrField raw k :=
  if_pos inside

theorem entry_within (packed : Packed d im) (reserved : nmeta ≤ d.freeblock) {k : Nat}
    (lower : nmeta ≤ addrField raw NDIRECT) (upper : addrField raw NDIRECT < FSSIZE)
    (entry : get32 (im.blocks (addrField raw NDIRECT)) k ≠ 0 →
      nmeta ≤ get32 (im.blocks (addrField raw NDIRECT)) k ∧
      get32 (im.blocks (addrField raw NDIRECT)) k < FSSIZE) :
    Within (fun place => Fits place.1) AtBlock ((Disk.iappendBlock.entry d raw k).bind readBlock)
      (some (iappendBlock.entry im (dinodeOf raw) k)) := by
  have room := packed.room
  have fits : d.freeblock < 2 ^ 32 := by
    simp only [FSSIZE] at room
    omega
  rw [Disk.iappendBlock.entry, rsect_some packed.length upper, packed.block lower upper,
    iappendBlock.entry, dinodeOf_addrs (Nat.le_refl _), Option.map_some, Option.bind_some]
  split
  · rw [get32_set32_self _ _ _ fits, packed.freeblock]
    by_cases below : d.freeblock < FSSIZE
    · have claimed := (packed.claim below).wsect lower upper
        (set32 (im.blocks (addrField raw NDIRECT)) k d.freeblock)
      grind [Packed.freeblock, readBlock_within]
    · have full : d.freeblock = FSSIZE := by omega
      rw [full]
      refine readBlock_end ?_ ?_
      · apply wsect_length _ upper
        exact packed.length
      · exact Nat.lt_succ_self FSSIZE
  · grind [readBlock_within]

/-- The blocks of the inode are data blocks. -/
theorem Ready.ranged (ready : Ready im X din off count) (some : blockAddr im.blocks din n ≠ 0) :
    nmeta ≤ blockAddr im.blocks din n ∧ blockAddr im.blocks din n < FSSIZE := by
  have same : owner im.blocks (tableOf (im.hold X din) 0) (((im.hold X din).icache 0).inum, n) =
      blockAddr im.blocks din n := by
    rw [owner_of_allocated, tableOf_self, hold_slot]
    rw [tableOf_self]
    exact ready.flight.allocated
  have range := ready.flight.owned.inRange (((im.hold X din).icache 0).inum, n)
  change owner im.blocks (tableOf (im.hold X din) 0) _ ≠ 0 → nmeta ≤ owner im.blocks
    (tableOf (im.hold X din) 0) _ ∧
    owner im.blocks (tableOf (im.hold X din) 0) _ < FSSIZE at range
  rw [same] at range
  exact range some

theorem iappendBlock_within (packed : Packed d im) (ready : Ready im X (dinodeOf raw) off count)
    (inside : n < MAXFILE) :
    Within (fun place => Fits place.1) AtBlock ((d.iappendBlock raw n).bind readBlock)
      (some (iappendBlock im (dinodeOf raw) n)) := by
  have room := packed.room
  have reserved := ready.fresh.reserved
  have free := packed.freeblock
  have fits : d.freeblock < 2 ^ 32 := by
    simp only [FSSIZE] at room
    omega
  rw [free] at reserved
  rw [Disk.iappendBlock, iappendBlock, dinodeOf_addrs (Nat.le_refl NDIRECT)]
  by_cases direct : n < NDIRECT
  · rw [if_pos direct, if_pos direct, dinodeOf_addrs (Nat.le_of_lt direct)]
    split
    · rw [Option.bind_some, addrField_setAddrField fits, free]
      by_cases below : d.freeblock < FSSIZE
      · have claimed := packed.claim below
        grind [readBlock_within, dinodeOf_setAddrField, Nat.le_of_lt]
      · have full : d.freeblock = FSSIZE := by omega
        rw [full]
        refine readBlock_end ?_ ?_
        · exact packed.length
        · exact Nat.lt_succ_self FSSIZE
    · rename_i some
      have range := ready.ranged (n := n)
      grind [blockAddr_direct, dinodeOf_addrs, Nat.le_of_lt, readBlock_within]
  · rw [if_neg direct, if_neg direct]
    split
    · rw [free]
      by_cases below : d.freeblock < FSSIZE
      · have claimed := packed.claim below
        rw [free] at claimed
        have within := @entry_within _ _ (setAddrField raw NDIRECT d.freeblock) claimed
          (Nat.le_succ_of_le reserved) (n - NDIRECT)
        rw [addrField_setAddrField fits, dinodeOf_setAddrField (Nat.le_refl _) fits] at within
        refine within reserved below fun some => ?_
        rw [ready.fresh.zero _ (by omega), get32_zero] at some
        exact (some rfl).elim
      · have full : d.freeblock = FSSIZE := by omega
        have stops : (Disk.iappendBlock.entry { d with freeblock := d.freeblock + 1 }
            (setAddrField raw NDIRECT d.freeblock) (n - NDIRECT)) = none := by
          have short : Disk.rsect { d with freeblock := FSSIZE + 1 } FSSIZE = none :=
            rsect_end packed.length
          rw [Disk.iappendBlock.entry, addrField_setAddrField fits, full, short]
          rfl
        rw [stops]
        refine Within.given_up ?_
        grind [Fits, iappendBlock.entry]
    · rename_i some
      have range := ready.ranged (n := MAXFILE)
      have entry := ready.ranged (n := n)
      rw [blockAddr_entry (by omega) inside (by rwa [dinodeOf_addrs (Nat.le_refl _)]),
        dinodeOf_addrs (Nat.le_refl _)] at entry
      exact entry_within packed reserved (range some).1 (range some).2 entry

end Block

section Append

variable {d : Disk} {im : Image} {raw : Block} {X : Nat} {p : List UInt8}

/-- The loop of `iappend` is at the same place on the disk and in the image. -/
structure AtOffset (there : Disk × Block × Nat) (here : Image × Dinode × Nat) : Prop where
  packed : Packed there.1 here.1
  din : dinodeOf there.2.1 = here.2.1
  off : there.2.2 = here.2.2

theorem diskLoop_succ (fuel : Nat) (d : Disk) (raw : Block) (off : Nat) (p : List UInt8) :
    Disk.iappendLoop (fuel + 1) d raw off p =
      if p.length = 0 then some (d, raw, off)
      else if off / BSIZE < MAXFILE then
        ((d.iappendBlock raw (off / BSIZE)).bind readBlock).bind fun (d, raw, x, buf) =>
          let n1 := min p.length (BSIZE - off % BSIZE)
          Disk.iappendLoop fuel (d.wsect x (overwrite buf (off % BSIZE) (p.take n1))) raw (off + n1)
            (p.drop n1)
      else none := by
  rw [Disk.iappendLoop, Option.bind_assoc, iappend_width, iappend_shift]
  grind [readBlock, Disk.rsect]

theorem iappendLoop_within {fuel off count : Nat} (packed : Packed d im)
    (ready : Ready im X (dinodeOf raw) off count) :
    Within (fun here => Fits here.1) AtOffset (Disk.iappendLoop fuel d raw off p)
      (iappendLoop fuel im (dinodeOf raw) off p) := by
  induction fuel generalizing d im raw off count p with
  | zero => exact Within.some ⟨packed, rfl, rfl⟩
  | succ fuel ih =>
    rw [diskLoop_succ, iappendLoop_succ]
    split
    · exact Within.some ⟨packed, rfl, rfl⟩
    split
    · rename_i inside
      refine (iappendBlock_within packed ready inside).bind ?_ ?_
      · intro place last result fits
        have more := iappendLoop_grows result
        exact Nat.le_trans more fits
      · rintro ⟨d1, raw1, x1, buf⟩ ⟨im1, din1, x⟩ there found
        have packed1 : Packed d1 im1 := found.packed
        have same : dinodeOf raw1 = din1 := found.din
        have block : x1 = x := found.block
        have content : buf = im1.blocks x := found.content
        subst same block content
        have room := packed1.fits
        have placed := ready.placed inside (Option.some.inj there) room
        exact ih (packed1.wsect found.lower found.upper _) (ready.round inside placed p)
    · exact Within.none

/-- The offset stays below the largest file size, so it is a `uint`. -/
theorem iappendLoop_bounded {fuel off off' : Nat} {im' : Image} {din din' : Dinode}
    (bounded : off ≤ MAXFILE * BSIZE)
    (result : iappendLoop fuel im din off p = some (im', din', off')) :
    off' ≤ MAXFILE * BSIZE := by
  induction fuel generalizing im din off p with
  | zero =>
    cases result
    exact bounded
  | succ fuel ih =>
    rw [iappendLoop_succ] at result
    split at result
    · cases result
      exact bounded
    · split at result
      · refine ih ?_ result
        simp only [MAXFILE, NINDIRECT, NDIRECT, BSIZE] at *
        omega
      · cases result

theorem iappend_within (packed : Packed d im) (ok : ImageOk im) (inside : X < NINODES)
    (allocated : (im.dinodes X).type ≠ .free) :
    Within Fits Packed (d.iappend X p) (iappend im X p) := by
  have ready := ok.ready allocated
  have sized : Sized im.blocks (im.dinodes X) := ok.sane.sized X allocated
  have bounded := sized.bounded
  rw [packed.dinode inside] at ready bounded
  rw [Disk.iappend, rinode_some packed inside, Option.bind_some, iappend, packed.dinode inside,
    Option.map_eq_bind]
  refine (iappendLoop_within packed ready).bind ?_ ?_
  · intro here last result fits
    cases result
    exact fits
  · rintro ⟨d1, raw1, off1⟩ ⟨im1, din1, off⟩ looped there
    have packed1 : Packed d1 im1 := there.packed
    have same : dinodeOf raw1 = din1 := there.din
    have equal : off1 = off := there.off
    have small := iappendLoop_bounded bounded looped
    have fits : off < 2 ^ 32 := Nat.lt_of_le_of_lt small (by decide)
    subst same equal
    obtain ⟨d2, written, packed2⟩ := packed1.winode inside (setSize raw1 off1)
    grind [dinodeOf_setSize, Fits, Disk.winode, setSize, Within.some]

end Append

section Files

variable {d : Disk} {im : Image} {ents : List Dirent} {data : Nat → List UInt8}

theorem ialloc_packed (packed : Packed d im) (few : im.freeinode < NINODES) (type : Itype) :
    ∃ d', d.ialloc type = some d' ∧ Packed d' (ialloc im type) := by
  have counted : Packed { d with freeinode := d.freeinode + 1 } { im with freeinode :=
    im.freeinode + 1 } := by
    refine ⟨?_, packed.length, packed.room, packed.superblock⟩
    rw [← packed.image]
    rfl
  rw [packed.freeinode] at few
  obtain ⟨d', written, packed'⟩ := counted.winode few (Disk.newInode type)
  refine ⟨d', written, ?_⟩
  rw [dinodeOf_newInode, ← packed.freeinode] at packed'
  exact packed'

theorem reads_within {X : Nat} {reads : List (List UInt8)} (packed : Packed d im)
    (built : Built im ents data) (inside : ROOTINO < X) (below : X < im.freeinode)
    (few : X < NINODES) :
    Within Fits Packed (Runs.run (fun d buf => Disk.iappend d X buf) d reads)
      (Runs.run (fun im buf => iappend im X buf) im reads) := by
  induction reads generalizing d im data with
  | nil => exact Within.some packed
  | cons buf rest ih =>
    have typed : (im.dinodes X).type ≠ .free := by
      rw [(built.files X inside below).1]
      decide
    refine (iappend_within packed built.ok few typed).bind ?_ ?_
    · intro next last result fits
      exact (iappends_grow result).trans fits
    · intro d1 im1 taken packed1
      have room := packed1.fits
      have grown := (iappend_grown built.ok typed taken room).2
      exact ih packed1 (built.append inside below taken room) (by rwa [grown.freeinode])

theorem addFile_within {file : Source} (packed : Packed d im) (built : Built im ents data)
    (few : im.freeinode < NINODES) : Within Fits Packed (d.addFile file) (addFile im file) := by
  obtain ⟨d1, allocated, packed1⟩ := ialloc_packed packed few .file
  have new := built.alloc few
  have typed : ((ialloc im .file).dinodes ROOTINO).type ≠ .free := by
    rw [new.type]
    decide
  rw [Disk.addFile, addFile]
  split
  · exact Within.none
  rw [allocated, Option.bind_some, ← packed.freeinode]
  refine (iappend_within packed1 new.ok (by decide) typed).bind ?_ ?_
  · intro next last result fits
    exact (iappends_grow result).trans fits
  · intro d2 im2 taken packed2
    have room := packed2.fits
    have small : im.freeinode < 2 ^ 16 := Nat.lt_trans few (by decide)
    have grown := (iappend_grown new.ok typed taken room).2
    have next : im2.freeinode = im.freeinode + 1 := grown.freeinode
    exact reads_within packed2 (new.entry taken room small (strncpy_length _ _)) built.started
      (by omega) few

theorem addFiles_within {files : List Source} (packed : Packed d im) (built : Built im ents data)
    (few : im.freeinode + files.length ≤ NINODES) :
    Within Fits Packed (Runs.run Disk.addFile d files) (Runs.run addFile im files) := by
  induction files generalizing d im ents data with
  | nil => exact Within.some packed
  | cons file rest ih =>
    rw [List.length_cons] at few
    refine (addFile_within packed built (by omega)).bind ?_ ?_
    · intro next last result fits
      exact (addFiles_grow result).trans fits
    · intro d1 im1 taken packed1
      have room := packed1.fits
      obtain ⟨built1, count⟩ := built.file (by omega) taken room
      exact ih packed1 built1 (by omega)

end Files

section Bitmap

theorem bitmapBlock_succ (used : Nat) : Disk.bitmapBlock (used + 1) =
    Function.update (Disk.bitmapBlock used) (used / 8)
      (Disk.bitmapBlock used (used / 8) ||| UInt8.ofNat (2 ^ (used % 8))) := by
  rw [Disk.bitmapBlock, List.range_succ, List.foldl_append]
  rfl

/-- The bits of the first `used` blocks are set, and no other. -/
theorem bitmapBlock_testBit (used k i : Nat) (small : i < 8) :
    (Disk.bitmapBlock used k).toNat.testBit i = decide (8 * k + i < used) := by
  induction used with
  | zero =>
    exact Nat.zero_testBit i
  | succ used ih =>
    have power : 2 ^ (used % 8) < 2 ^ 8 := Nat.pow_lt_pow_right (by decide)
      (Nat.mod_lt _ (by decide))
    rw [bitmapBlock_succ]
    by_cases here : k = used / 8
    · rw [← here, Function.update_self, UInt8.toNat_or, Nat.testBit_or, ih, UInt8.toNat_ofNat',
        Nat.mod_eq_of_lt power, Nat.testBit_two_pow, ← Bool.decide_or, decide_eq_decide]
      omega
    · grind

/-- The bitmap of the disk marks the first `used` blocks. -/
def Marked (d : Disk) (used : Nat) : Prop := ∀ b, b < BPB → d.bit sb b = decide (b < used)

theorem balloc_packed {d : Disk} {im : Image} (packed : Packed d im) :
    ∃ d', d.balloc d.freeblock = some d' ∧ Packed d' im ∧ Marked d' im.freeblock := by
  have room := packed.room
  have small : d.freeblock < BSIZE * 8 := by
    simp only [FSSIZE, BSIZE] at room ⊢
    omega
  have place : sb.bmapstart = 39 := by decide
  have inside : sb.bmapstart < FSSIZE := by decide
  refine ⟨_, by rw [Disk.balloc, if_pos small], ?_, fun b below => ?_⟩
  · refine packed.wrote inside (by decide) (fun j inode => ?_) (fun _ _ => rfl) (fun b data => ?_)
      fun _ _ => rfl
    · have range := IBLOCK_range inode
      exact packed.dinode_wsect inside (by omega) inode
    · have large : 40 ≤ b := data.1
      rw [Function.update_of_ne (by omega), packed.block data.1 data.2]
  · have block : BBLOCK b sb = sb.bmapstart := by rw [BBLOCK, Nat.div_eq_of_lt below, Nat.zero_add]
    rw [Disk.bit, block, wsect_sectors inside, Function.update_self, Nat.mod_eq_of_lt below,
      bitmapBlock_testBit _ _ _ (Nat.mod_lt _ (by decide)), Nat.div_add_mod, packed.freeblock]

end Bitmap

section Whole

variable {d : Disk} {im : Image} {files : List Source}

theorem fixRoot_packed (packed : Packed d im)
    (bounded : (im.dinodes ROOTINO).size ≤ MAXFILE * BSIZE) :
    ∃ d', d.fixRoot = some d' ∧ Packed d' (fixRoot im) := by
  have root : ROOTINO < NINODES := by decide
  have same : (im.dinodes ROOTINO).size = sizeField (d.inodeBytes sb ROOTINO) := by
    rw [packed.dinode root]
    rfl
  have fits : (sizeField (d.inodeBytes sb ROOTINO) / BSIZE + 1) * BSIZE < 2 ^ 32 := by grind
  obtain ⟨d', written, packed'⟩ := packed.winode root (setSize (d.inodeBytes sb ROOTINO)
    ((sizeField (d.inodeBytes sb ROOTINO) / BSIZE + 1) * BSIZE))
  refine ⟨d', by rw [Disk.fixRoot, rinode_some packed root, Option.bind_some, written], ?_⟩
  rw [dinodeOf_setSize fits, ← packed.dinode root, ← same] at packed'
  exact packed'

/-- The disk of zeroes, with the super block. -/
theorem zeroed_packed : Packed (Disk.zeroed.wsect 1 (overwrite (fun _ => 0) 0 sb.bytes)) blank := by
  have small : 1 < FSSIZE := by decide
  refine ⟨?_, wsect_length rfl small _, ?_, ?_⟩
  · have dinodes : (fun j => if j < NINODES then dinodeOf (Disk.inodeBytes
        (Disk.zeroed.wsect 1 (overwrite (fun _ => 0) 0 sb.bytes)) sb j) else Dinode.zero) = fun _ =>
        Dinode.zero := by
      funext j
      split
      · exact dinodeOf_zero
      · rfl
    have blocks : (fun b => if nmeta ≤ b ∧ b < FSSIZE then
        (Disk.zeroed.wsect 1 (overwrite (fun _ => 0) 0 sb.bytes)).sectors b else fun _ =>
          0) = fun _ _ => 0 := by
      funext b
      split
      · rename_i data
        have large : 40 ≤ b := data.1
        rw [wsect_sectors small, Function.update_of_ne (by omega)]
        rfl
      · rfl
    change Image.mk _ _ _ _ = Image.mk _ _ _ _
    rw [← dinodes, ← blocks]
    rfl
  · decide
  · rw [wsect_sectors small, Function.update_self]

/-- The disk with an empty root directory, to which mkfs adds the files. -/
theorem Rooted.packed {root : Image} (rooted : Rooted root) :
    ∃ d, Packed d root ∧ ∀ files, Disk.mkfs files = (Runs.run Disk.addFile d files).bind fun d =>
      d.fixRoot.bind fun d => d.balloc d.freeblock := by
  obtain ⟨first, dot, ok, type, room, dotdot⟩ := rooted.dots
  obtain ⟨d0, allocated, packed0⟩ := ialloc_packed zeroed_packed (by decide) .dir
  obtain ⟨d1, dot', packed1⟩ := (iappend_within packed0 (built_root fun _ => []).ok (by decide)
    (by decide)).complete first dot room
  have small : root.freeblock ≤ FSSIZE := by
    rw [rooted.freeblock]
    decide
  obtain ⟨d2, dotdot', packed2⟩ := (iappend_within packed1 ok (by decide)
    (by rw [type]; decide)).complete root dotdot small
  refine ⟨d2, packed2, fun files => ?_⟩
  rw [Disk.mkfs, allocated, Option.bind_some, dot', Option.bind_some, dotdot', Option.bind_some]

/-- The end of mkfs, on the disk with the files. -/
theorem finish_packed (packed : Packed d im) (ok : ImageOk im)
    (type : (im.dinodes ROOTINO).type = .dir) :
    ∃ d', (d.fixRoot.bind fun d => d.balloc d.freeblock) = some d' ∧ Packed d' (fixRoot im) ∧
      Marked d' im.freeblock := by
  have typed : (im.dinodes ROOTINO).type ≠ .free := by
    rw [type]
    decide
  have sized : Sized im.blocks (im.dinodes ROOTINO) := ok.sane.sized ROOTINO typed
  obtain ⟨d1, fixed, packed1⟩ := fixRoot_packed packed sized.bounded
  obtain ⟨d2, marked, packed2, bits⟩ := balloc_packed packed1
  refine ⟨d2, ?_, packed2, bits⟩
  rw [fixed, Option.bind_some, marked]

/-- mkfs writes the image, unless it does not fit on the disk. -/
theorem mkfs_within (few : files.length < NINODES - 1) :
    Within Fits (fun d im => Packed d im ∧ Marked d im.freeblock) (Disk.mkfs files)
      (mkfs files) := by
  obtain ⟨root, rooted⟩ := exists_rooted
  obtain ⟨d, packed, disk⟩ := rooted.packed
  have two := rooted.freeinode
  have enough : root.freeinode + files.length ≤ NINODES := by omega
  rw [disk, rooted.mkfs, Option.map_eq_bind]
  refine (addFiles_within packed rooted.built enough).bind ?_ ?_
  · intro im last result fits
    cases result
    exact fits
  · intro d1 im1 filled packed1
    obtain ⟨data, built, -⟩ := rooted.built.run enough filled packed1.fits
    obtain ⟨d2, ended, packed2, bits⟩ := finish_packed packed1 built.ok built.type
    rw [ended]
    exact Within.some ⟨packed2, bits⟩

theorem Packed.readsb (packed : Packed d im) : readsb (d.sectors 1) = sb := by
  rw [packed.superblock]
  decide +kernel

/-- The kernel that starts on the disk sees the image. -/
theorem Packed.boot (packed : Packed d im) (marked : Marked d im.freeblock)
    (devsw : Int → Option Device) :
    d.boot devsw = im.boot devsw := by
  have bits : (fun b => decide (b < sb.size) && d.bit sb b) = bitmap im := by
    funext b
    by_cases inside : b < FSSIZE
    · rw [decide_eq_true (show b < sb.size from inside), Bool.true_and,
        marked b (Nat.lt_trans inside (by decide))]
      rfl
    · have room := packed.fits
      have none : bitmap im b = false := decide_eq_false (by omega)
      rw [decide_eq_false (show ¬ b < sb.size from inside), Bool.false_and, none]
  rw [Disk.boot, packed.readsb, packed.image, bits]
  rfl

end Whole

end Xv6.Mkfs
