import Xv6.Fs.Disk
import Xv6.Lib.Exec
import Xv6.Namecache
import Xv6.Pipe

/- The block and inode layers of fs.c. A block read through the buffer cache is the
block of the state, and a log_write is a change of it that is noted; the inode blocks and the
bitmap are kept as the inodes and bits they hold. Process `p` runs the code; a sleep-lock that
is taken makes it wait. -/
namespace Xv6.Fs

open Exec hiding panic
open Namecache

/-- The in-memory inode; `din` is its copy of the disk inode, `lock` who holds it. -/
structure Inode where
  dev : Nat
  inum : Nat
  ref : Nat
  lock : Option (Fin NPROC)
  valid : Bool
  din : Dinode

/-- FD_NONE, FD_PIPE and FD_INODE. -/
inductive FileType where
  | none
  | pipe
  | inode
  deriving DecidableEq

structure File where
  type : FileType
  ref : Nat
  readable : Bool
  writable : Bool
  /-- The page of the pipe. -/
  pipe : Nat
  ip : Fin NINODE
  off : Nat

/-- What the file system knows of a process; one that does not run has no `cwd`. -/
structure Task where
  uid : Int
  gid : Int
  cwd : Option (Fin NINODE)
  ofile : Fin NOFILE → Option (Fin NFILE)

/-- An entry of `devsw`: the count and bytes a read of `n` bytes gives, the count a write gives. -/
structure Device where
  read : Nat → Int × List UInt8
  write : List UInt8 → Int

structure State where
  dinodes : Nat → Dinode
  bitmap : Nat → Bool
  blocks : Nat → Block
  icache : Fin NINODE → Inode
  namecache : Cache
  ftable : Fin NFILE → File
  procs : Fin NPROC → Task
  devsw : Int → Option Device
  /-- The pages that hold a pipe. -/
  pipes : Nat → Option Pipe
  /-- The blocks of the calls of log_write, the last one first. -/
  logged : List Nat

/-- IBLOCK and BBLOCK, for the super block of mkfs. -/
def iblock (inum : Nat) : Nat := inum / IPB + (2 + LOGSIZE)
def bblock (b : Nat) : Nat := b / BPB + (2 + LOGSIZE + (NINODES / IPB + 1))

def setInode (i : Fin NINODE) (change : Inode → Inode) : Exec State Unit :=
  modify fun s => { s with icache := Function.update s.icache i (change (s.icache i)) }

def setDin (i : Fin NINODE) (change : Dinode → Dinode) : Exec State Unit :=
  setInode i fun ip => { ip with din := change ip.din }

section Blocks

/-- The first free block, zeroed. -/
def balloc : Exec State Nat := do
  let s ← get
  match (List.range FSSIZE).find? fun b => !s.bitmap b with
  | some b =>
    modify fun s => { s with
      bitmap := Function.update s.bitmap b true
      blocks := Function.update s.blocks b fun _ => 0
      logged := b :: bblock b :: s.logged }
    return b
  | none => Exec.panic "balloc: out of blocks"

def bfree (b : Nat) : Exec State Unit := do
  let s ← get
  if s.bitmap b = false then Exec.panic "freeing free block"
  else modify fun s => { s with
    bitmap := Function.update s.bitmap b false
    logged := bblock b :: s.logged }

end Blocks

section Inodes

def iupdate (i : Fin NINODE) : Exec State Unit :=
  modify fun s => { s with
    dinodes := Function.update s.dinodes (s.icache i).inum (s.icache i).din
    logged := iblock (s.icache i).inum :: s.logged }

def iget (dev inum : Nat) : Exec State (Fin NINODE) := do
  let s ← get
  match (List.finRange NINODE).find? fun i =>
      0 < (s.icache i).ref ∧ (s.icache i).dev = dev ∧ (s.icache i).inum = inum with
  | some i =>
    setInode i fun ip => { ip with ref := ip.ref + 1 }
    return i
  | none =>
    match (List.finRange NINODE).find? fun i => (s.icache i).ref = 0 with
    | some i =>
      setInode i fun ip => { ip with dev := dev, inum := inum, ref := 1, valid := false }
      return i
    | none => Exec.panic "iget: no inodes"

/-- The inode `ialloc` writes for a process of the given user and group. -/
def newDinode (type : Itype) (uid gid : Int) : Dinode :=
  { Dinode.zero with
    type := type
    uid := toUshort uid
    gid := toUshort gid
    mode := if type = .dir then 0o755 else 0o644 }

/-- What is left of an inode that is freed. -/
def Dinode.freed (din : Dinode) (addrs : Nat → Nat) : Dinode :=
  { din with type := .free, size := 0, addrs := addrs }

def ialloc (p : Fin NPROC) (type : Itype) : Exec State (Fin NINODE) := do
  let s ← get
  match (List.range' 1 (NINODES - 1)).find? fun inum => (s.dinodes inum).type = .free with
  | some inum =>
    modify fun s => { s with
      dinodes := Function.update s.dinodes inum
        (newDinode type (s.procs p).uid (s.procs p).gid)
      logged := iblock inum :: s.logged }
    iget ROOTDEV inum
  | none => Exec.panic "ialloc: no inodes"

def idup (i : Fin NINODE) : Exec State (Fin NINODE) := do
  setInode i fun ip => { ip with ref := ip.ref + 1 }
  return i

def acquiresleep (p : Fin NPROC) (i : Fin NINODE) : Exec State Unit := do
  let s ← get
  if (s.icache i).lock = none then setInode i fun ip => { ip with lock := some p }
  else wait

def releasesleep (i : Fin NINODE) : Exec State Unit :=
  setInode i fun ip => { ip with lock := none }

def ilock (p : Fin NPROC) (i : Fin NINODE) : Exec State Unit := do
  let s ← get
  if (s.icache i).ref < 1 then Exec.panic "ilock"
  else
    acquiresleep p i
    when ((s.icache i).valid = false) do
      setInode i fun ip => { ip with din := s.dinodes ip.inum, valid := true }
      when ((s.dinodes (s.icache i).inum).type = .free) (Exec.panic "ilock: no type")

def iunlock (p : Fin NPROC) (i : Fin NINODE) : Exec State Unit := do
  let s ← get
  if (s.icache i).lock ≠ some p ∨ (s.icache i).ref < 1 then Exec.panic "iunlock"
  else releasesleep i

/-- The loop of `itrunc` over the direct blocks. -/
def freeDirect (i : Fin NINODE) : List Nat → Exec State Unit
  | [] => return
  | bn :: rest => do
    let s ← get
    when ((s.icache i).din.addrs bn ≠ 0) do
      bfree ((s.icache i).din.addrs bn)
      setDin i fun din => { din with addrs := Function.update din.addrs bn 0 }
    freeDirect i rest

/-- The loop of `itrunc` over the entries of the indirect block `a`. -/
def freeIndirect (a : Block) : List Nat → Exec State Unit
  | [] => return
  | j :: rest => do
    when (get32 a j ≠ 0) (bfree (get32 a j))
    freeIndirect a rest

def itrunc (i : Fin NINODE) : Exec State Unit := do
  freeDirect i (List.range NDIRECT)
  let s ← get
  when ((s.icache i).din.addrs NDIRECT ≠ 0) do
    freeIndirect (s.blocks ((s.icache i).din.addrs NDIRECT)) (List.range NINDIRECT)
    bfree ((s.icache i).din.addrs NDIRECT)
    setDin i fun din => { din with addrs := Function.update din.addrs NDIRECT 0 }
  setDin i fun din => { din with size := 0 }
  iupdate i

/-- The part of `iput` that frees an inode without links and without other references. -/
def ifree (i : Fin NINODE) : Exec State Unit := do
  itrunc i
  setDin i fun din => { din with type := .free }
  iupdate i
  setInode i fun ip => { ip with valid := false }

def iput (p : Fin NPROC) (i : Fin NINODE) : Exec State Unit := do
  acquiresleep p i
  let s ← get
  when ((s.icache i).valid = true ∧ (s.icache i).din.nlink = 0 ∧ (s.icache i).ref = 1) (ifree i)
  releasesleep i
  setInode i fun ip => { ip with ref := ip.ref - 1 }

def iunlockput (p : Fin NPROC) (i : Fin NINODE) : Exec State Unit := do
  iunlock p i
  iput p i

end Inodes

/-- The changes of inode fields in sysfile.c. -/
inductive Change where
  /-- `ip->nlink++` -/
  | link
  /-- `ip->nlink--` -/
  | unlink
  /-- `ip->major = major; ip->minor = minor; ip->nlink = 1` -/
  | create (major minor : Int)
  /-- `ip->mode = mode & 0777` -/
  | chmod (mode : Int)
  /-- `ip->uid = uid` -/
  | chown (uid : Int)

def Change.apply : Change → Dinode → Dinode
  | .link, din => { din with nlink := toShort (din.nlink + 1) }
  | .unlink, din => { din with nlink := toShort (din.nlink - 1) }
  | .create major minor, din =>
    { din with major := toShort major, minor := toShort minor, nlink := 1 }
  | .chmod mode, din => { din with mode := (mode % 0o1000).toNat }
  | .chown uid, din => { din with uid := toUshort uid }

section Content

def bmap (i : Fin NINODE) (bn : Nat) : Exec State Nat := do
  let s ← get
  if bn < NDIRECT then
    if (s.icache i).din.addrs bn = 0 then
      let addr ← balloc
      setDin i fun din => { din with addrs := Function.update din.addrs bn addr }
      return addr
    else return (s.icache i).din.addrs bn
  else if bn - NDIRECT < NINDIRECT then
    -- Load indirect block, allocating if necessary.
    if (s.icache i).din.addrs NDIRECT = 0 then
      let addr ← balloc
      setDin i fun din => { din with addrs := Function.update din.addrs NDIRECT addr }
      indirect addr (bn - NDIRECT)
    else indirect ((s.icache i).din.addrs NDIRECT) (bn - NDIRECT)
  else Exec.panic "bmap: out of range"
where
  /-- The entry `bn` of the indirect block at `addr`. -/
  indirect (addr bn : Nat) : Exec State Nat := do
    let s ← get
    if get32 (s.blocks addr) bn = 0 then
      let new ← balloc
      modify fun s => { s with
        blocks := Function.update s.blocks addr (set32 (s.blocks addr) bn new)
        logged := addr :: s.logged }
      return new
    else return get32 (s.blocks addr) bn

/-- The loop of `readi`: the bytes of [off, off + n). Each round reads at least one. -/
def readiLoop (i : Fin NINODE) : Nat → Nat → Nat → Exec State (List UInt8)
  | 0, _, _ => return []
  | fuel + 1, off, n =>
    if n = 0 then return []
    else do
      let addr ← bmap i (off / BSIZE)
      let s ← get
      let m := min n (BSIZE - off % BSIZE)
      let rest ← readiLoop i fuel (off + m) (n - m)
      return (List.range m).map (fun k => s.blocks addr (off % BSIZE + k)) ++ rest

/-- The count, and the bytes read. -/
def readi (i : Fin NINODE) (off n : Nat) : Exec State (Int × List UInt8) := do
  let s ← get
  let din := (s.icache i).din
  if din.type = .dev then
    if din.major < 0 ∨ NDEV ≤ din.major then return (-1, [])
    else
      match s.devsw din.major with
      | some device => return device.read n
      | none => return (-1, [])
  else if din.size < off ∨ (off + n) % 2 ^ 32 < off then return (-1, [])
  else
    let n := if din.size < off + n then din.size - off else n
    let bytes ← readiLoop i n off n
    return (n, bytes)

/-- The loop of `writei`: writes `src` at `off` and returns the offset behind it. -/
def writeiLoop (i : Fin NINODE) : Nat → Nat → List UInt8 → Exec State Nat
  | 0, off, _ => return off
  | fuel + 1, off, src =>
    if src.length = 0 then return off
    else do
      let addr ← bmap i (off / BSIZE)
      let m := min src.length (BSIZE - off % BSIZE)
      modify fun s => { s with
        blocks := Function.update s.blocks addr
          (overwrite (s.blocks addr) (off % BSIZE) (src.take m))
        logged := addr :: s.logged }
      writeiLoop i fuel (off + m) (src.drop m)

def writei (i : Fin NINODE) (src : List UInt8) (off : Nat) : Exec State Int := do
  let s ← get
  let din := (s.icache i).din
  let n := src.length
  if din.type = .dev then
    if din.major < 0 ∨ NDEV ≤ din.major then return -1
    else
      match s.devsw din.major with
      | some device => return device.write src
      | none => return -1
  else if din.size < off ∨ (off + n) % 2 ^ 32 < off then return -1
  else if MAXFILE * BSIZE < off + n then return -1
  else
    let final ← writeiLoop i n off src
    when (0 < n ∧ din.size < final) do
      setDin i fun din => { din with size := final }
      iupdate i
    return n

end Content

end Xv6.Fs
