import Mathlib.Algebra.Group.Int.Defs
import Mathlib.Algebra.GroupWithZero.Nat

/- The constants of param.h, fs.h, stat.h, fcntl.h, perm.h, namecache.h, mmu.h and memlayout.h. -/
namespace Xv6

def NPROC : Nat := 64
def NOFILE : Nat := 16
def NFILE : Nat := 100
def NINODE : Nat := 50
abbrev NDEV : Nat := 10
abbrev MAXARG : Nat := 32
abbrev ROOTDEV : Nat := 1
abbrev MAXOPBLOCKS : Nat := 10
abbrev LOGSIZE : Nat := MAXOPBLOCKS * 3
def NBUF : Nat := MAXOPBLOCKS * 3
abbrev FSSIZE : Nat := 1000

instance : NeZero NPROC := ⟨by decide⟩
instance : NeZero NOFILE := ⟨by decide⟩
instance : NeZero NFILE := ⟨by decide⟩
instance : NeZero NINODE := ⟨by decide⟩
instance : NeZero NBUF := ⟨by decide⟩

abbrev ROOTINO : Nat := 1
abbrev BSIZE : Nat := 4096
abbrev NDIRECT : Nat := 12
abbrev NINDIRECT : Nat := BSIZE / 4
abbrev MAXFILE : Nat := NDIRECT + NINDIRECT
abbrev DIRSIZ : Nat := 14

/-- `sizeof(struct dinode)`, its padding included. -/
abbrev DINODESIZE : Nat := 128
abbrev IPB : Nat := BSIZE / DINODESIZE
abbrev BPB : Nat := BSIZE * 8

/-- `NINODES` of mkfs.c, and `sb.ninodes` of the images it writes. -/
abbrev NINODES : Nat := 200

abbrev PGSIZE : Nat := 4096
abbrev KERNBASE : Nat := 0x80000000

end Xv6
