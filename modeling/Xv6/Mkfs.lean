import Xv6.Fs.Dirent
import Xv6.Fs.Update
import Xv6.Lib.Runs

/- mkfs.c: the image a file system starts from. `none` is a failed assertion. -/
namespace Xv6.Mkfs

open Fs CString Ownership

/-- The image while it is built. -/
structure Image where
  dinodes : Nat → Dinode
  blocks : Nat → Block
  freeinode : Nat
  freeblock : Nat

/-- Where block `fbn` of the inode `din` is; it gets one if it has none. -/
def iappendBlock (im : Image) (din : Dinode) (fbn : Nat) : Image × Dinode × Nat :=
  if fbn < NDIRECT then
    if din.addrs fbn = 0 then
      ({ im with freeblock := im.freeblock + 1 }, din.setAddr fbn im.freeblock, im.freeblock)
    else (im, din, din.addrs fbn)
  else
    if din.addrs NDIRECT = 0 then
      entry { im with freeblock := im.freeblock + 1 } (din.setAddr NDIRECT im.freeblock)
        (fbn - NDIRECT)
    else entry im din (fbn - NDIRECT)
where
  /-- The entry `k` of the indirect block of `din`. -/
  entry (im : Image) (din : Dinode) (k : Nat) : Image × Dinode × Nat :=
    let indirect := im.blocks (din.addrs NDIRECT)
    if get32 indirect k = 0 then
      ({ im with
        blocks := Function.update im.blocks (din.addrs NDIRECT) (set32 indirect k im.freeblock)
        freeblock := im.freeblock + 1 }, din, im.freeblock)
    else (im, din, get32 indirect k)

/-- The loop of `iappend`; each round takes at least one byte. -/
def iappendLoop : Nat → Image → Dinode → Nat → List UInt8 → Option (Image × Dinode × Nat)
  | 0, im, din, off, _ => some (im, din, off)
  | fuel + 1, im, din, off, p =>
    if p.length = 0 then some (im, din, off)
    else if off / BSIZE < MAXFILE then
      let (im, din, x) := iappendBlock im din (off / BSIZE)
      let n1 := min p.length ((off / BSIZE + 1) * BSIZE - off)
      iappendLoop fuel
        { im with
          blocks := Function.update im.blocks x
            (overwrite (im.blocks x) (off - off / BSIZE * BSIZE) (p.take n1)) }
        din (off + n1) (p.drop n1)
    else none

def iappend (im : Image) (inum : Nat) (p : List UInt8) : Option Image :=
  (iappendLoop p.length im (im.dinodes inum) (im.dinodes inum).size p).map fun (im, din, off) =>
    { im with dinodes := Function.update im.dinodes inum { din with size := off } }

/-- The new inode is number `freeinode`. -/
def ialloc (im : Image) (type : Itype) : Image :=
  { im with
    dinodes := Function.update im.dinodes im.freeinode { Dinode.zero with type := type, nlink := 1 }
    freeinode := im.freeinode + 1 }

/-- A file of the command line: its name, and what the reads of it give. -/
structure Source where
  name : List UInt8
  reads : List (List UInt8)

/-- Skip leading _ in name when writing to file system. -/
def targetName (name : List UInt8) : List UInt8 :=
  if deref name = 95 then name.tail else name

def addFile (im : Image) (file : Source) : Option Image :=
  if file.name.contains 47 then none
  else
    let inum := im.freeinode
    (iappend (ialloc im .file) ROOTINO (Dirent.bytes
      ⟨inum, strncpy (targetName file.name) DIRSIZ⟩)).bind
      fun im => Runs.run (fun im buf => iappend im inum buf) im file.reads

/-- fix size of root inode dir -/
def fixRoot (im : Image) : Image :=
  { im with dinodes := Function.update im.dinodes ROOTINO { im.dinodes ROOTINO with
      size := ((im.dinodes ROOTINO).size / BSIZE + 1) * BSIZE } }

/-- The zeroed disk. -/
def blank : Image := ⟨fun _ => Dinode.zero, fun _ _ => 0, 1, nmeta⟩

def mkfs (files : List Source) : Option Image :=
  (iappend (ialloc blank .dir) ROOTINO (Dirent.bytes ⟨ROOTINO, strncpy [46] DIRSIZ⟩)).bind fun im =>
  (iappend im ROOTINO (Dirent.bytes ⟨ROOTINO, strncpy [46, 46] DIRSIZ⟩)).bind fun im =>
  (Runs.run addFile im files).map fixRoot

/-- The free bitmap that `balloc(freeblock)` writes. -/
def bitmap (im : Image) (b : Nat) : Bool := b < im.freeblock

/-- The kernel's state when it starts on the image: the caches and tables are zeroed memory. -/
def Image.boot (im : Image) (devsw : Int → Option Device) : State where
  dinodes := im.dinodes
  bitmap := bitmap im
  blocks := im.blocks
  icache := fun _ => ⟨0, 0, 0, none, false, Dinode.zero⟩
  namecache := Namecache.namecacheInit
  ftable := fun _ => ⟨.none, 0, false, false, 0, 0, 0⟩
  procs := fun _ => ⟨0, 0, none, fun _ => none⟩
  devsw := devsw
  pipes := fun _ => none
  logged := []

/-- mkfs makes an image that fits on the disk, and it is such that `holds`. -/
def Yields (files : List Source) (holds : Image → Prop) : Prop :=
  ∃ im, mkfs files = some im ∧ im.freeblock ≤ FSSIZE ∧ holds im

instance {files : List Source} {holds : Image → Prop} [DecidablePred holds] :
    Decidable (Yields files holds) :=
  inferInstanceAs (Decidable (∃ im ∈ mkfs files, im.freeblock ≤ FSSIZE ∧ holds im))

end Xv6.Mkfs
