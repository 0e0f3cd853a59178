import Xv6.Mkfs

/- mkfs.c with the bytes of its image: sectors that are read and written whole, inodes packed
into blocks, and the free bitmap. `none` is a failed assertion or `exit(1)`. What the kernel
sees of the bytes is an `Image`. -/
namespace Xv6.Mkfs

open Fs CString

/-- fs.img, with its length in sectors, and the two counters. -/
structure Disk where
  sectors : Nat → Block
  length : Nat
  freeinode : Nat
  freeblock : Nat

structure Superblock where
  size : Nat
  nblocks : Nat
  ninodes : Nat
  nlog : Nat
  logstart : Nat
  inodestart : Nat
  bmapstart : Nat
  deriving DecidableEq

/-- What mkfs writes into the super block. -/
def sb : Superblock where
  size := FSSIZE
  nblocks := FSSIZE - nmeta
  ninodes := NINODES
  nlog := LOGSIZE
  logstart := 2
  inodestart := 2 + LOGSIZE
  bmapstart := 2 + LOGSIZE + (NINODES / IPB + 1)

def Superblock.bytes (sb : Superblock) : List UInt8 :=
  bytes32 sb.size ++ bytes32 sb.nblocks ++ bytes32 sb.ninodes ++ bytes32 sb.nlog ++
    bytes32 sb.logstart ++ bytes32 sb.inodestart ++ bytes32 sb.bmapstart

/-- The super block that the kernel reads from block 1. -/
def readsb (b : Block) : Superblock :=
  ⟨get32 b 0, get32 b 1, get32 b 2, get32 b 3, get32 b 4, get32 b 5, get32 b 6⟩

/-- Block containing inode i -/
def IBLOCK (i : Nat) (sb : Superblock) : Nat := i / IPB + sb.inodestart

/-- Block of free map containing bit for block b -/
def BBLOCK (b : Nat) (sb : Superblock) : Nat := b / BPB + sb.bmapstart

/-- The sector at `sec * BSIZE`, which is computed as a `uint`. -/
def lseek (sec : Nat) : Nat := sec * BSIZE % 2 ^ 32 / BSIZE

namespace Disk

/-- A read past the end of the file is short. -/
def rsect (d : Disk) (sec : Nat) : Option Block :=
  if lseek sec < d.length then some (d.sectors (lseek sec)) else none

def wsect (d : Disk) (sec : Nat) (buf : Block) : Disk :=
  { d with
    sectors := Function.update d.sectors (lseek sec) buf
    length := max d.length (lseek sec + 1) }

end Disk

section Inodes

/- A `struct dinode` in memory is its bytes: type 0, major 2, minor 4, nlink 6, size 8, uid 12,
gid 14, mode 16, addrs 20. -/

def get16 (b : Block) (off : Nat) : Nat := (b off).toNat + 2 ^ 8 * (b (off + 1)).toNat

def bytes16 (v : Nat) : List UInt8 := [UInt8.ofNat v, UInt8.ofNat (v / 2 ^ 8)]

/-- `din.size` -/
def sizeField (din : Block) : Nat := get32 din 2

def setSize (din : Block) (v : Nat) : Block := set32 din 2 v

/-- `din.addrs[k]` -/
def addrField (din : Block) (k : Nat) : Nat := get32 din (5 + k)

def setAddrField (din : Block) (k v : Nat) : Block := set32 din (5 + k) v

/-- `buf[0..size) = *din` at byte `off` -/
def copyInode (buf : Block) (off : Nat) (din : Block) : Block := fun k =>
  if off ≤ k ∧ k < off + DINODESIZE then din (k - off) else buf k

def typeCode : Itype → Nat
  | .free => 0
  | .dir => 1
  | .file => 2
  | .dev => 3

/-- No other code is on a disk that mkfs writes. -/
def typeOf : Nat → Itype
  | 1 => .dir
  | 2 => .file
  | 3 => .dev
  | _ => .free

/-- What the kernel reads from the bytes of an inode. -/
def dinodeOf (din : Block) : Dinode where
  type := typeOf (get16 din 0)
  major := toShort (get16 din 2)
  minor := toShort (get16 din 4)
  nlink := toShort (get16 din 6)
  size := sizeField din
  uid := get16 din 12
  gid := get16 din 14
  mode := get16 din 16
  addrs := fun k => if k ≤ NDIRECT then addrField din k else 0

end Inodes

namespace Disk

def rinode (d : Disk) (inum : Nat) : Option Block :=
  (d.rsect (IBLOCK inum sb)).map fun buf k => buf (inum % IPB * DINODESIZE + k)

def winode (d : Disk) (inum : Nat) (din : Block) : Option Disk :=
  (d.rsect (IBLOCK inum sb)).map fun buf => d.wsect (IBLOCK inum sb)
    (copyInode buf (inum % IPB * DINODESIZE) din)

/-- The bytes of a new inode. -/
def newInode (type : Itype) : Block :=
  overwrite (overwrite (fun _ => 0) 0 (bytes16 (typeCode type))) 6 (bytes16 1)

/-- The new inode is number `freeinode`. -/
def ialloc (d : Disk) (type : Itype) : Option Disk :=
  { d with freeinode := d.freeinode + 1 }.winode d.freeinode (newInode type)

/-- Where block `fbn` of the inode `din` is; it gets one if it has none. -/
def iappendBlock (d : Disk) (din : Block) (fbn : Nat) : Option (Disk × Block × Nat) :=
  if fbn < NDIRECT then
    if addrField din fbn = 0 then
      some ({ d with freeblock := d.freeblock + 1 }, setAddrField din fbn d.freeblock,
        addrField (setAddrField din fbn d.freeblock) fbn)
    else some (d, din, addrField din fbn)
  else
    if addrField din NDIRECT = 0 then
      entry { d with freeblock := d.freeblock + 1 } (setAddrField din NDIRECT d.freeblock)
        (fbn - NDIRECT)
    else entry d din (fbn - NDIRECT)
where
  /-- The entry `k` of the indirect block of `din`. -/
  entry (d : Disk) (din : Block) (k : Nat) : Option (Disk × Block × Nat) :=
    (d.rsect (addrField din NDIRECT)).map fun indirect =>
      if get32 indirect k = 0 then
        ({ d with freeblock := d.freeblock + 1 }.wsect (addrField din NDIRECT)
          (set32 indirect k d.freeblock), din, get32 (set32 indirect k d.freeblock) k)
      else (d, din, get32 indirect k)

/-- The loop of `iappend`; each round takes at least one byte. -/
def iappendLoop : Nat → Disk → Block → Nat → List UInt8 → Option (Disk × Block × Nat)
  | 0, d, din, off, _ => some (d, din, off)
  | fuel + 1, d, din, off, p =>
    if p.length = 0 then some (d, din, off)
    else if off / BSIZE < MAXFILE then
      (d.iappendBlock din (off / BSIZE)).bind fun (d, din, x) =>
      (d.rsect x).bind fun buf =>
        let n1 := min p.length ((off / BSIZE + 1) * BSIZE - off)
        iappendLoop fuel (d.wsect x (overwrite buf (off - off / BSIZE * BSIZE) (p.take n1))) din
          (off + n1) (p.drop n1)
    else none

def iappend (d : Disk) (inum : Nat) (p : List UInt8) : Option Disk :=
  (d.rinode inum).bind fun din =>
  (iappendLoop p.length d din (sizeField din) p).bind fun (d, din, off) =>
  d.winode inum (setSize din off)

def addFile (d : Disk) (file : Source) : Option Disk :=
  if file.name.contains 47 then none
  else
    let inum := d.freeinode
    (d.ialloc .file).bind fun d =>
    (d.iappend ROOTINO (Dirent.bytes ⟨inum, strncpy (targetName file.name) DIRSIZ⟩)).bind fun d =>
    Runs.run (fun d buf => iappend d inum buf) d file.reads

/-- fix size of root inode dir -/
def fixRoot (d : Disk) : Option Disk :=
  (d.rinode ROOTINO).bind fun din =>
  d.winode ROOTINO (setSize din ((sizeField din / BSIZE + 1) * BSIZE))

/-- The bitmap block in which the first `used` blocks are allocated. -/
def bitmapBlock (used : Nat) : Block :=
  (List.range used).foldl
    (fun buf i => Function.update buf (i / 8) (buf (i / 8) ||| UInt8.ofNat (2 ^ (i % 8))))
    fun _ => 0

def balloc (d : Disk) (used : Nat) : Option Disk :=
  if used < BSIZE * 8 then some (d.wsect sb.bmapstart (bitmapBlock used)) else none

/-- FSSIZE sectors of zeroes. -/
def zeroed : Disk := ⟨fun _ _ => 0, FSSIZE, 1, nmeta⟩

def mkfs (files : List Source) : Option Disk :=
  ((zeroed.wsect 1 (overwrite (fun _ => 0) 0 sb.bytes)).ialloc .dir).bind fun d =>
  (d.iappend ROOTINO (Dirent.bytes ⟨ROOTINO, strncpy [46] DIRSIZ⟩)).bind fun d =>
  (d.iappend ROOTINO (Dirent.bytes ⟨ROOTINO, strncpy [46, 46] DIRSIZ⟩)).bind fun d =>
  (Runs.run addFile d files).bind fun d =>
  d.fixRoot.bind fun d =>
  d.balloc d.freeblock

/-- The bytes of inode `j`. -/
def inodeBytes (d : Disk) (sb : Superblock) (j : Nat) : Block := fun k =>
  d.sectors (IBLOCK j sb) (j % IPB * DINODESIZE + k)

/-- The bit of block `b` in the bitmap. -/
def bit (d : Disk) (sb : Superblock) (b : Nat) : Bool :=
  (d.sectors (BBLOCK b sb) (b % BPB / 8)).toNat.testBit (b % BPB % 8)

/-- The inodes of the table and the data blocks, as the kernel finds them with the super block
`sb`. `iget` has no bound, and would find the bitmap and data blocks behind the table as more
inodes; by `Fs.names_numbered` no run looks there, if mkfs was given few enough files. -/
def image (d : Disk) (sb : Superblock) : Image where
  dinodes := fun j => if j < sb.ninodes then dinodeOf (d.inodeBytes sb j) else Dinode.zero
  blocks := fun b => if sb.size - sb.nblocks ≤ b ∧ b < sb.size then d.sectors b else fun _ => 0
  freeinode := d.freeinode
  freeblock := d.freeblock

/-- The kernel's state when it starts on the disk. -/
def boot (d : Disk) (devsw : Int → Option Device) : State :=
  let sb := readsb (d.sectors 1)
  { (d.image sb).boot devsw with bitmap := fun b => decide (b < sb.size) && d.bit sb b }

end Disk

end Xv6.Mkfs
