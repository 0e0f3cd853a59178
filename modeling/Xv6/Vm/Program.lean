import Xv6.Fs.Loader
import Xv6.Vm.Setup

/- exec.c, over any file system that has the four calls it makes, with the memory it builds. -/
namespace Xv6.Vm

open Exec hiding panic
open Fs (Elfhdr Proghdr ELF_MAGIC ELF_PROG_LOAD ELFHDRSIZE PROGHDRSIZE)
open Fs (overwrite uintAt bytes32 get32)

/-- A string of the user. -/
structure CStr where
  bytes : List UInt8
  text : 0 ∉ bytes
  short : bytes.length < KERNBASE

/-- A file system, with the inodes it has in memory. -/
structure Files (φ ι : Type) where
  namei : List UInt8 → Exec φ (Option ι)
  ilock : ι → Exec φ Unit
  readi : ι → Nat → Nat → Exec φ (Int × List UInt8)
  iunlockput : ι → Exec φ Unit

variable {φ ι : Type} (files : Files φ ι) (ip : ι) (L : Layout)

/-- Load a segment into pages that are mapped. -/
def loaduvm (pgdir addr offset sz : Nat) : Exec (φ × State) Int :=
  if addr % PGSIZE ≠ 0 then Exec.panic "loaduvm: addr must be page aligned"
  else loop (2 ^ 20) 0
where
  loop : Nat → Nat → Exec (φ × State) Int
    | 0, _ => wait
    | fuel + 1, i => do
      if i < sz then
        match ← onSecond (walkpgdir pgdir (add32 addr i) false) with
        | none => Exec.panic "loaduvm: address should exist"
        | some pte =>
          let (_, s) ← get
          let pa := get32 (s.mem pte.1) pte.2 / PGSIZE
          let n := if sz - i < PGSIZE then sz - i else PGSIZE
          let (r, bytes) ← onFirst (files.readi ip (add32 offset i) n)
          onSecond (setPage pa (overwrite (s.mem pa) 0 bytes))
          if r ≠ n then return -1 else loop fuel (add32 i PGSIZE)
      else return 0

/-- The loop over the program headers, with so many to go: the size of the image, if all is well. -/
def loadProgram (pgdir : Nat) : Nat → Nat → Nat → Exec (φ × State) (Option Nat)
  | 0, _, sz => return some sz
  | k + 1, off, sz => do
    let (r, bytes) ← onFirst (files.readi ip off PROGHDRSIZE)
    let ph := Proghdr.ofBytes bytes
    if r ≠ PROGHDRSIZE then return none
    else if ph.type ≠ ELF_PROG_LOAD then loadProgram pgdir k (add32 off PROGHDRSIZE) sz
    else if ph.memsz < ph.filesz then return none
    else if add32 ph.vaddr ph.memsz < ph.vaddr then return none
    else
      let sz ← onSecond (allocuvm L pgdir sz (add32 ph.vaddr ph.memsz))
      if sz = 0 then return none
      else if ph.vaddr % PGSIZE ≠ 0 then return none
      else
        let loaded ← loaduvm files ip pgdir ph.vaddr ph.off ph.filesz
        if loaded < 0 then return none else loadProgram pgdir k (add32 off PROGHDRSIZE) sz

/-- Push the argument strings: the stack pointer, and where each string is. -/
def pushArgs (pgdir : Nat) : List CStr → Nat → Nat → List Nat → Exec State (Option (Nat × List Nat))
  | [], _, sp, ustack => return some (sp, ustack)
  | arg :: rest, argc, sp, ustack => do
    if MAXARG ≤ argc then return none
    else
      let sp := sub32 sp (arg.bytes.length + 1) / 4 * 4
      let copied ← copyout pgdir sp (arg.bytes ++ [0])
      if copied < 0 then return none
      else pushArgs pgdir rest (argc + 1) sp (ustack ++ [sp])

/-- The words below the strings: fake return PC, argc, argv, and what argv points to. -/
def ustackOf (argc sp : Nat) (pointers : List Nat) : List Nat :=
  [0xffffffff, argc, sub32 sp ((argc + 1) * 4)] ++ pointers ++ [0]

/-- The user stack: a guard page and a page with the arguments. The new size and stack pointer. -/
def setStack (pgdir : Nat) (argv : List CStr) (sz : Nat) : Exec State (Option (Nat × Nat)) := do
  let sz ← allocuvm L pgdir (PGROUNDUP sz) (add32 (PGROUNDUP sz) (2 * PGSIZE))
  if sz = 0 then return none
  else
    clearpteu pgdir (sub32 sz (2 * PGSIZE))
    match ← pushArgs pgdir argv 0 sz [] with
    | none => return none
    | some (sp, pointers) =>
      let ustack := ustackOf argv.length sp pointers
      let sp := sub32 sp ((3 + argv.length + 1) * 4)
      let copied ← copyout pgdir sp (ustack.flatMap bytes32)
      if copied < 0 then return none else return some (sz, sp)

/-- The part of the path behind the last slash. -/
def lastName (path : List UInt8) : List UInt8 := (path.reverse.takeWhile (· ≠ 47)).reverse

/-- What it returns, and the process afterwards. -/
def exec (p : Proc) (path : List UInt8) (argv : List CStr) : Exec (φ × State) (Int × Proc) := do
  match ← onFirst (files.namei path) with
  | none => return (-1, p)
  | some ip =>
    onFirst (files.ilock ip)
    let (r, bytes) ← onFirst (files.readi ip 0 ELFHDRSIZE)
    let elf := Elfhdr.ofBytes bytes
    if r ≠ ELFHDRSIZE then bad 0 (some ip)
    else if elf.magic ≠ ELF_MAGIC then bad 0 (some ip)
    else
      let pgdir ← onSecond (setupkvm L)
      if pgdir = 0 then bad 0 (some ip)
      else
        match ← loadProgram files ip L pgdir elf.phnum elf.phoff 0 with
        | none => bad pgdir (some ip)
        | some sz =>
          onFirst (files.iunlockput ip)
          match ← onSecond (setStack L pgdir argv sz) with
          | none => bad pgdir none
          | some (sz, sp) =>
            -- Save program name for debugging, and commit to the user image.
            let p' : Proc := { p with
              name := CString.safestrcpy (lastName path) 16
              pgdir := pgdir
              sz := sz
              eip := uintAt bytes 24
              esp := sp }
            onSecond (switchuvm p')
            onSecond (freevm L p.pgdir)
            return (0, p')
where
  bad (pgdir : Nat) (ip : Option ι) : Exec (φ × State) (Int × Proc) := do
    when (pgdir ≠ 0) (onSecond (freevm L pgdir))
    match ip with
    | none => return (-1, p)
    | some ip =>
      onFirst (files.iunlockput ip)
      return (-1, p)

/-- What a read gives of a regular file with these contents. -/
def readContent (content : List UInt8) (off n : Nat) : Int × List UInt8 :=
  if content.length < off ∨ (off + n) % 2 ^ 32 < off then (-1, [])
  else
    let m := if content.length < off + n then content.length - off else n
    (m, (content.drop off).take m)

/-- A file system with one regular file. -/
def oneFile (content : List UInt8) : Files Unit Unit where
  namei _ := return some ()
  ilock _ := return
  readi _ off n := return readContent content off n
  iunlockput _ := return

end Xv6.Vm
