import Xv6.Fs.File

/- exec.c as far as it reads the program from the file system. What it does to the memory
of the process is not here: whether there is enough of it is told by `enough`. -/
namespace Xv6.Fs

open Exec hiding panic

def ELF_MAGIC : Nat := 0x464C457F
def ELF_PROG_LOAD : Nat := 1

/-- `sizeof(struct elfhdr)` and `sizeof(struct proghdr)`. -/
abbrev ELFHDRSIZE : Nat := 52
abbrev PROGHDRSIZE : Nat := 32

def ushortAt (bytes : List UInt8) (off : Nat) : Nat :=
  (bytes.getD off 0).toNat + 2 ^ 8 * (bytes.getD (off + 1) 0).toNat

def uintAt (bytes : List UInt8) (off : Nat) : Nat :=
  ushortAt bytes off + 2 ^ 16 * ushortAt bytes (off + 2)

structure Elfhdr where
  magic : Nat
  phoff : Nat
  phnum : Nat

def Elfhdr.ofBytes (bytes : List UInt8) : Elfhdr :=
  ⟨uintAt bytes 0, uintAt bytes 28, ushortAt bytes 44⟩

structure Proghdr where
  type : Nat
  off : Nat
  vaddr : Nat
  filesz : Nat
  memsz : Nat

def Proghdr.ofBytes (bytes : List UInt8) : Proghdr :=
  ⟨uintAt bytes 0, uintAt bytes 4, uintAt bytes 8, uintAt bytes 16, uintAt bytes 20⟩

/-- The size that `allocuvm` returns, 0 if it fails. -/
def newSize (enough : Bool) (oldsz newsz : Nat) : Nat :=
  if KERNBASE ≤ newsz then 0
  else if newsz < oldsz then oldsz
  else if enough then newsz
  else 0

/-- Whether each page of the segment could be read. -/
def loaduvm (ip : Fin NINODE) (offset sz : Nat) : Exec State Bool :=
  loop ((List.range ((sz + (PGSIZE - 1)) / PGSIZE)).map fun k => PGSIZE * k)
where
  loop : List Nat → Exec State Bool
    | [] => return true
    | i :: rest => do
      let n := min (sz - i) PGSIZE
      let (r, _) ← readi ip ((offset + i) % 2 ^ 32) n
      if r ≠ n then return false else loop rest

/-- The loop of `exec` over the program headers; `enough k` is for the one with `k` behind it. -/
def loadProgram (enough : Nat → Bool) (ip : Fin NINODE) : Nat → Nat → Nat → Exec State Bool
  | 0, _, _ => return true
  | k + 1, off, sz => do
    let (r, bytes) ← readi ip off PROGHDRSIZE
    let ph := Proghdr.ofBytes bytes
    if r ≠ PROGHDRSIZE then return false
    else if ph.type ≠ ELF_PROG_LOAD then loadProgram enough ip k ((off + PROGHDRSIZE) % 2 ^ 32) sz
    else if ph.memsz < ph.filesz then return false
    else if (ph.vaddr + ph.memsz) % 2 ^ 32 < ph.vaddr then return false
    else
      let sz := newSize (enough k) sz (ph.vaddr + ph.memsz)
      if sz = 0 then return false
      else if ph.vaddr % PGSIZE ≠ 0 then return false
      else
        if ← loaduvm ip ph.off ph.filesz then
          loadProgram enough ip k ((off + PROGHDRSIZE) % 2 ^ 32) sz
        else return false

/-- `setupkvm` and `rest` tell whether there is memory for the page directory, and whether
the stack and the arguments can be set up. -/
def exec (p : Fin NPROC) (path : List UInt8) (setupkvm : Bool) (enough : Nat → Bool) (rest : Bool) :
    Exec State Int := do
  match ← namei p path with
  | none => return -1
  | some ip =>
    ilock p ip
    let (r, bytes) ← readi ip 0 ELFHDRSIZE
    let elf := Elfhdr.ofBytes bytes
    if r ≠ ELFHDRSIZE then bad ip
    else if elf.magic ≠ ELF_MAGIC then bad ip
    else if setupkvm = false then bad ip
    else
      if ← loadProgram enough ip elf.phnum elf.phoff 0 then
        iunlockput p ip
        return if rest then 0 else -1
      else bad ip
where
  bad (ip : Fin NINODE) : Exec State Int := do
    iunlockput p ip
    return -1

end Xv6.Fs
