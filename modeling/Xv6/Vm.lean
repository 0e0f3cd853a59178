import Xv6.Fs.Disk
import Xv6.Lib.Exec

/- kalloc.c and vm.c. Physical memory is an array of pages of bytes; a page is named by its number,
and stands for the kernel address `P2V(PGSIZE * n)` where the code has that. The free list is a list
of pages instead of pointers in the free pages. -/
namespace Xv6.Vm

open Exec hiding panic
open Fs (Block get32 set32 overwrite)

def EXTMEM : Nat := 0x100000
def PHYSTOP : Nat := 0xE000000
def DEVSPACE : Nat := 0xFE000000
def KERNLINK : Nat := KERNBASE + EXTMEM

abbrev NPDENTRIES : Nat := 1024
abbrev NPTENTRIES : Nat := 1024
abbrev PTE_P : Nat := 1
abbrev PTE_W : Nat := 2
abbrev PTE_U : Nat := 4

/-- `uint` arithmetic. -/
def add32 (a b : Nat) : Nat := (a + b) % 2 ^ 32
def sub32 (a b : Nat) : Nat := (a + 2 ^ 32 - b) % 2 ^ 32

def V2P (a : Nat) : Nat := sub32 a KERNBASE

def PDX (va : Nat) : Nat := va / 2 ^ 22 % 1024
def PTX (va : Nat) : Nat := va / 2 ^ 12 % 1024
def PGADDR (d t o : Nat) : Nat := (2 ^ 22 * d + 2 ^ 12 * t + o) % 2 ^ 32
def PGROUNDUP (sz : Nat) : Nat := PGSIZE * (add32 sz (PGSIZE - 1) / PGSIZE)
def PGROUNDDOWN (a : Nat) : Nat := PGSIZE * (a / PGSIZE)

/-- A row of `kmap`. -/
structure Kmap where
  virt : Nat
  physStart : Nat
  physEnd : Nat
  perm : Nat

/-- Where the kernel ends, how much memory there is, and what every page table maps for the
kernel. -/
structure Layout where
  kernelEnd : Nat
  phystop : Nat
  kmap : List Kmap

/-- The layout of xv6, for the symbols `data` and `end` of the linker. -/
def layout (data kernelEnd : Nat) : Layout where
  kernelEnd := kernelEnd
  phystop := PHYSTOP
  kmap := [
    ⟨KERNBASE, 0, EXTMEM, PTE_W⟩,
    ⟨KERNLINK, V2P KERNLINK, V2P data, 0⟩,
    ⟨data, V2P data, PHYSTOP, PTE_W⟩,
    ⟨DEVSPACE, DEVSPACE, 0, PTE_W⟩]

/-- `refuse` lets `kalloc` fail at any call, by the number of calls before it. -/
structure State where
  mem : Nat → Block
  freelist : List Nat
  asked : Nat
  refuse : Nat → Bool

/-- Fill a page. -/
def setPage (n : Nat) (page : Block) : Exec State Unit :=
  modify fun s => { s with mem := Function.update s.mem n page }

/-- `a[i] = v`, for the page as an array of `uint`. -/
def setWord (n i v : Nat) : Exec State Unit :=
  modify fun s => { s with mem := Function.update s.mem n (set32 (s.mem n) i v) }

/-- The code reads through a null pointer, and what happens then is not defined. -/
def undefined {α : Type} : Exec State α := wait

section Pages

variable (L : Layout)

def kfree (n : Nat) : Exec State Unit := do
  if KERNBASE + PGSIZE * n < L.kernelEnd ∨ L.phystop ≤ PGSIZE * n then Exec.panic "kfree"
  else
    -- Fill with junk to catch dangling refs.
    setPage n fun _ => 1
    modify fun s => { s with freelist := n :: s.freelist }

def kalloc : Exec State (Option Nat) := do
  let s ← get
  if s.refuse s.asked then
    modify fun s => { s with asked := s.asked + 1 }
    return none
  else
    match s.freelist with
    | [] =>
      modify fun s => { s with asked := s.asked + 1 }
      return none
    | n :: rest =>
      modify fun s => { s with asked := s.asked + 1, freelist := rest }
      return some n

/-- A `pte_t *`: the page of the page table, and the index in it. -/
abbrev PtePtr := Nat × Nat

def walkpgdir (pgdir va : Nat) (alloc : Bool) : Exec State (Option PtePtr) := do
  let s ← get
  let pde := get32 (s.mem pgdir) (PDX va)
  if pde &&& PTE_P ≠ 0 then return some (pde / PGSIZE, PTX va)
  else if alloc = false then return none
  else
    match ← kalloc with
    | none => return none
    | some pgtab =>
      -- Make sure all those PTE_P bits are zero.
      setPage pgtab fun _ => 0
      setWord pgdir (PDX va) (PGSIZE * pgtab ||| PTE_P ||| PTE_W ||| PTE_U)
      return some (pgtab, PTX va)

/-- The `fuel` is for as many pages as there are addresses for. -/
def mappages (pgdir va size pa perm : Nat) : Exec State Int :=
  loop (2 ^ 20) (PGROUNDDOWN va) pa
where
  loop : Nat → Nat → Nat → Exec State Int
    | 0, _, _ => wait
    | fuel + 1, a, pa => do
      match ← walkpgdir pgdir a true with
      | none => return -1
      | some pte =>
        let s ← get
        if get32 (s.mem pte.1) pte.2 &&& PTE_P ≠ 0 then Exec.panic "remap"
        else
          setWord pte.1 pte.2 (pa ||| perm ||| PTE_P)
          if a = PGROUNDDOWN (sub32 (add32 va size) 1) then return 0
          else loop fuel (add32 a PGSIZE) (add32 pa PGSIZE)

def deallocuvm (pgdir oldsz newsz : Nat) : Exec State Nat := do
  if oldsz ≤ newsz then return oldsz
  else
    loop (2 ^ 20) (PGROUNDUP newsz)
    return newsz
where
  loop : Nat → Nat → Exec State Unit
    | 0, _ => wait
    | fuel + 1, a => do
      if a < oldsz then
        match ← walkpgdir pgdir a false with
        | none => loop fuel (add32 (sub32 (PGADDR (PDX a + 1) 0 0) PGSIZE) PGSIZE)
        | some pte =>
          let s ← get
          let pa := get32 (s.mem pte.1) pte.2 / PGSIZE
          if get32 (s.mem pte.1) pte.2 &&& PTE_P ≠ 0 then
            if pa = 0 then Exec.panic "kfree"
            else
              kfree L pa
              setWord pte.1 pte.2 0
              loop fuel (add32 a PGSIZE)
          else loop fuel (add32 a PGSIZE)
      else return

/-- 0 is the null pointer. -/
def freevm (pgdir : Nat) : Exec State Unit := do
  if pgdir = 0 then Exec.panic "freevm: no pgdir"
  else
    let _ ← deallocuvm L pgdir KERNBASE 0
    loop (List.range NPDENTRIES)
    kfree L pgdir
where
  loop : List Nat → Exec State Unit
    | [] => return
    | i :: rest => do
      let s ← get
      let pde := get32 (s.mem pgdir) i
      when (pde &&& PTE_P ≠ 0) (kfree L (pde / PGSIZE))
      loop rest

/-- Set up kernel part of a page table; 0 if that fails. -/
def setupkvm : Exec State Nat := do
  match ← kalloc with
  | none => return 0
  | some pgdir =>
    setPage pgdir fun _ => 0
    if DEVSPACE < KERNBASE + L.phystop then Exec.panic "PHYSTOP too high"
    else loop pgdir L.kmap
where
  loop (pgdir : Nat) : List Kmap → Exec State Nat
    | [] => return pgdir
    | k :: rest => do
      let mapped ← mappages pgdir k.virt (sub32 k.physEnd k.physStart) k.physStart k.perm
      if mapped < 0 then
        freevm L pgdir
        return 0
      else loop pgdir rest

/-- The new size, or 0 on error. -/
def allocuvm (pgdir oldsz newsz : Nat) : Exec State Nat :=
  if KERNBASE ≤ newsz then return 0
  else if newsz < oldsz then return oldsz
  else loop (2 ^ 20) (PGROUNDUP oldsz)
where
  loop : Nat → Nat → Exec State Nat
    | 0, _ => wait
    | fuel + 1, a => do
      if a < newsz then
        match ← kalloc with
        | none =>
          -- allocuvm out of memory
          let _ ← deallocuvm L pgdir newsz oldsz
          return 0
        | some mem =>
          setPage mem fun _ => 0
          let mapped ← mappages pgdir a PGSIZE (PGSIZE * mem) (PTE_W ||| PTE_U)
          if mapped < 0 then
            -- allocuvm out of memory (2)
            let _ ← deallocuvm L pgdir newsz oldsz
            kfree L mem
            return 0
          else loop fuel (add32 a PGSIZE)
      else return newsz

/-- Clear PTE_U on a page. -/
def clearpteu (pgdir uva : Nat) : Exec State Unit := do
  match ← walkpgdir pgdir uva false with
  | none => Exec.panic "clearpteu"
  | some pte =>
    let s ← get
    setWord pte.1 pte.2 (get32 (s.mem pte.1) pte.2 &&& (2 ^ 32 - 1 - PTE_U))

/-- A copy of the parent's page table for a child; 0 if that fails. -/
def copyuvm (pgdir sz : Nat) : Exec State Nat := do
  let d ← setupkvm L
  if d = 0 then return 0 else loop d (2 ^ 20) 0
where
  loop (d : Nat) : Nat → Nat → Exec State Nat
    | 0, _ => wait
    | fuel + 1, i => do
      if i < sz then
        match ← walkpgdir pgdir i false with
        | none => Exec.panic "copyuvm: pte should exist"
        | some pte =>
          let s ← get
          let word := get32 (s.mem pte.1) pte.2
          if word &&& PTE_P = 0 then Exec.panic "copyuvm: page not present"
          else
            match ← kalloc with
            | none =>
              freevm L d
              return 0
            | some mem =>
              setPage mem (s.mem (word / PGSIZE))
              let mapped ← mappages d i PGSIZE (PGSIZE * mem) (word % PGSIZE)
              if mapped < 0 then
                kfree L mem
                freevm L d
                return 0
              else loop d fuel (add32 i PGSIZE)
      else return d

/-- The page of a user address, unless the user may not use it. -/
def uva2ka (pgdir uva : Nat) : Exec State (Option Nat) := do
  match ← walkpgdir pgdir uva false with
  | none => undefined
  | some pte =>
    let s ← get
    let word := get32 (s.mem pte.1) pte.2
    if word &&& PTE_P = 0 then return none
    else if word &&& PTE_U = 0 then return none
    else return some (word / PGSIZE)

/-- Copy the bytes to user address `va` of `pgdir`. A page of them at a time, so that there are
not more rounds than bytes. -/
def copyout (pgdir va : Nat) (bytes : List UInt8) : Exec State Int :=
  loop bytes.length va bytes
where
  loop : Nat → Nat → List UInt8 → Exec State Int
    | _, _, [] => return 0
    | 0, _, _ => wait
    | fuel + 1, va, buf => do
      let va0 := PGROUNDDOWN va
      match ← uva2ka pgdir va0 with
      | none => return -1
      | some pa0 =>
        let n := min (PGSIZE - (va - va0)) buf.length
        let s ← get
        setPage pa0 (overwrite (s.mem pa0) (va - va0) (buf.take n))
        loop fuel (add32 va0 PGSIZE) (buf.drop n)

/-- One round of `copyout`, with what is left to do in it. -/
theorem copyout_round {d va fuel : Nat} {bytes : List UInt8} (more : bytes ≠ []) :
    copyout.loop d (fuel + 1) va bytes = (do
    match ← uva2ka d (PGSIZE * (va / PGSIZE)) with
    | none => return -1
    | some pa0 =>
      let s ← get
      setPage pa0 (overwrite (s.mem pa0) (va % PGSIZE)
        (bytes.take (min (PGSIZE - va % PGSIZE) bytes.length)))
      copyout.loop d fuel (add32 (PGSIZE * (va / PGSIZE)) PGSIZE)
        (bytes.drop (min (PGSIZE - va % PGSIZE) bytes.length))) := by
  have offset : va - PGSIZE * (va / PGSIZE) = va % PGSIZE := by
    have parts := Nat.div_add_mod va PGSIZE
    omega
  rw [copyout.loop]
  · simp only [PGROUNDDOWN, offset]
  · exact more

end Pages

/-- What `struct proc` has for the memory of a process. -/
structure Proc where
  pgdir : Nat
  kstack : Nat
  sz : Nat
  eip : Nat
  esp : Nat
  name : List UInt8

def switchuvm (p : Proc) : Exec State Unit :=
  if p.kstack = 0 then Exec.panic "switchuvm: no kstack"
  else if p.pgdir = 0 then Exec.panic "switchuvm: no pgdir"
  else return

end Xv6.Vm
