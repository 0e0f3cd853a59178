import Xv6.Lib.Exec
import Xv6.Params

/- The arguments of a system call (syscall.c). They are on the user stack, at addresses that the
process chooses, and the kernel runs in the address space of the process: a check that lets a wrong
address through lets the kernel read there. -/
namespace Xv6.Syscall

open Exec

/-- A `uint`, an `int` or a user address. -/
abbrev Word := BitVec 32

/-- What `myproc()` is to these functions, with the bytes that its address space shows. -/
structure Proc where
  memory : Nat → UInt8
  sz : Word
  esp : Word

/-- The addresses that were read. -/
abbrev Reads := List Nat

section Fetch

variable (p : Proc)

def load (a : Word) : Exec Reads UInt8 := do
  modify fun reads => a.toNat :: reads
  return p.memory a.toNat

/-- `*(int*)a`. -/
def loadInt (a : Word) : Exec Reads Word := do
  let b0 ← load p a
  let b1 ← load p (a + 1)
  let b2 ← load p (a + 2)
  let b3 ← load p (a + 3)
  return BitVec.ofNat 32 (b0.toNat + 2 ^ 8 * b1.toNat + 2 ^ 16 * b2.toNat + 2 ^ 24 * b3.toNat)

/-- The value that goes to `*ip`, or nothing where the code returns -1. -/
def fetchint (addr : Word) : Exec Reads (Option Word) := do
  if p.sz ≤ addr ∨ p.sz < addr + 4 then return none
  else
    let i ← loadInt p addr
    return some i

/-- The value that goes to `*pp` and the length, as an `int`, or nothing where the code returns -1.
There are as many rounds as bytes from `addr` to the end of the memory. -/
def fetchstr (addr : Word) : Exec Reads (Option (Word × Int)) := do
  if p.sz ≤ addr then return none
  else loop (p.sz.toNat - addr.toNat) addr
where
  loop : Nat → Word → Exec Reads (Option (Word × Int))
    | 0, _ => return none
    | rounds + 1, s => do
      if s < p.sz then
        let b ← load p s
        if b = 0 then return some (addr, (s - addr).toInt)
        else loop rounds (s + 1)
      else return none

def argint (n : Word) : Exec Reads (Option Word) := fetchint p (p.esp + 4 + 4 * n)

def argptr (n size : Word) : Exec Reads (Option Word) := do
  match ← argint p n with
  | none => return none
  | some i =>
    if size.toInt < 0 ∨ p.sz ≤ i ∨ p.sz < i + size then return none
    else return some i

def argstr (n : Word) : Exec Reads (Option (Word × Int)) := do
  match ← argint p n with
  | none => return none
  | some addr => fetchstr p addr

end Fetch

section Inside

variable {allowed : Stops} {p : Proc} {reads : Reads} {addr n size : Word}

/-- Only addresses below `sz` were read. -/
def Within (p : Proc) (reads : Reads) : Prop := ∀ a ∈ reads, a < p.sz.toNat

theorem load_spec (within : Within p reads) (below : addr.toNat < p.sz.toNat) :
    Spec allowed (load p addr) reads fun b reads' => Within p reads' ∧ b = p.memory addr.toNat := by
  refine Spec.bind_modify ?_
  refine Spec.pure ⟨fun a member => ?_, rfl⟩
  rcases List.mem_cons.mp member with rfl | before
  · exact below
  · exact within a before

theorem loadInt_spec (within : Within p reads) (fits : addr.toNat + 4 ≤ p.sz.toNat) :
    Spec allowed (loadInt p addr) reads fun _ reads' => Within p reads' := by
  refine Spec.bind (load_spec within (by omega)) ?_
  rintro b0 reads0 ⟨within0, _⟩
  refine Spec.bind (load_spec within0 (by bv_omega)) ?_
  rintro b1 reads1 ⟨within1, _⟩
  refine Spec.bind (load_spec within1 (by bv_omega)) ?_
  rintro b2 reads2 ⟨within2, _⟩
  refine Spec.bind (load_spec within2 (by bv_omega)) ?_
  rintro b3 reads3 ⟨within3, _⟩
  exact Spec.pure within3

theorem fetchint_spec (user : p.sz.toNat < KERNBASE) (within : Within p reads) (addr : Word) :
    Spec allowed (fetchint p addr) reads fun _ reads' => Within p reads' := by
  unfold fetchint
  split
  · exact Spec.pure within
  have fits : addr.toNat + 4 ≤ p.sz.toNat := by
    simp only [KERNBASE] at user
    bv_omega
  refine Spec.bind (loadInt_spec within fits) ?_
  intro i reads' within'
  exact Spec.pure within'

/-- A string of `len` bytes and its NUL. -/
structure IsString (p : Proc) (q len : Nat) : Prop where
  inside : q + len < p.sz.toNat
  bytes : ∀ k < len, p.memory (q + k) ≠ 0
  ends : p.memory (q + len) = 0

theorem fetchstr_spec (user : p.sz.toNat < KERNBASE) (within : Within p reads) (addr : Word) :
    Spec allowed (fetchstr p addr) reads fun r reads' => Within p reads' ∧
      ∀ q len, r = some (q, len) → q = addr ∧ 0 ≤ len ∧ IsString p q.toNat len.toNat := by
  -- The bytes from `addr` to `s` are not NUL.
  have loop : ∀ rounds s reads, Within p reads → addr.toNat ≤ s.toNat → s.toNat ≤ p.sz.toNat →
      (∀ k < s.toNat - addr.toNat, p.memory (addr.toNat + k) ≠ 0) →
      Spec allowed (fetchstr.loop p addr rounds s) reads fun r reads' => Within p reads' ∧
        ∀ q len, r = some (q, len) → q = addr ∧ 0 ≤ len ∧ IsString p q.toNat len.toNat := by
    intro rounds
    induction rounds with
    | zero =>
      intro s reads within _ _ _
      exact Spec.pure ⟨within, nofun⟩
    | succ rounds ih =>
      intro s reads within low high before
      rw [fetchstr.loop]
      split
      · rename_i below
        refine Spec.bind (load_spec within below) ?_
        rintro b reads' ⟨within', read⟩
        have near : s.toNat < 2 ^ 31 := by
          simp only [KERNBASE] at user
          bv_omega
        split
        · rename_i zero
          refine Spec.pure ⟨within', fun q len same => ?_⟩
          obtain ⟨rfl, rfl⟩ := same
          have difference : (s - addr).toInt = ((s.toNat - addr.toNat : Nat) : Int) := by grind
          rw [difference, Int.toNat_natCast]
          have ends : addr.toNat + (s.toNat - addr.toNat) = s.toNat := by omega
          refine ⟨rfl, Int.natCast_nonneg _, ?_, before, ?_⟩
          · rw [ends]
            exact below
          · rw [ends, ← read, zero]
        · rename_i other
          have next : (s + 1).toNat = s.toNat + 1 := by bv_omega
          refine ih (s + 1) reads' within' (by omega) ?_ fun k less => ?_
          · rw [next]
            exact below
          · by_cases last : k = s.toNat - addr.toNat
            · rw [last, show addr.toNat + (s.toNat - addr.toNat) = s.toNat by omega, ← read]
              exact other
            · exact before k (by omega)
      · exact Spec.pure ⟨within, nofun⟩
  unfold fetchstr
  split
  · exact Spec.pure ⟨within, nofun⟩
  · rename_i below
    rw [BitVec.not_le] at below
    refine loop _ addr reads within (Nat.le_refl _) (Nat.le_of_lt below) ?_
    omega

theorem argptr_spec (user : p.sz.toNat < KERNBASE) (within : Within p reads) (n size : Word) :
    Spec allowed (argptr p n size) reads fun r reads' => Within p reads' ∧
      ∀ q, r = some q → 0 ≤ size.toInt ∧ q.toNat + size.toInt ≤ p.sz.toNat := by
  refine Spec.bind (fetchint_spec user within _) ?_
  intro r reads' within'
  cases r with
  | none => exact Spec.pure ⟨within', nofun⟩
  | some i =>
    dsimp only
    split
    · exact Spec.pure ⟨within', nofun⟩
    have small : 2 * size.toNat < 2 ^ 32 := by
      have cases := BitVec.toInt_eq_toNat_cond size
      omega
    refine Spec.pure ⟨within', fun q same => ?_⟩
    cases same
    have sum : i.toNat + size.toNat ≤ p.sz.toNat := by
      simp only [KERNBASE] at user
      bv_omega
    rw [BitVec.toInt_eq_toNat_of_lt small]
    omega

theorem argstr_spec (user : p.sz.toNat < KERNBASE) (within : Within p reads) (n : Word) :
    Spec allowed (argstr p n) reads fun r reads' => Within p reads' ∧
      ∀ q len, r = some (q, len) → 0 ≤ len ∧ IsString p q.toNat len.toNat := by
  refine Spec.bind (fetchint_spec user within _) ?_
  intro r reads' within'
  cases r with
  | none => exact Spec.pure ⟨within', nofun⟩
  | some addr =>
    refine Spec.mono (fetchstr_spec user within' addr) ?_
    grind

/-- For every process, stack pointer, memory and number of the argument, the functions return and
read only memory of the process; a block or string that they accept is inside that memory. -/
theorem arguments_inside (p : Proc) (user : p.sz.toNat < KERNBASE) (n : Word) :
    (∃ r reads, argint p n [] = .ok (r, reads) ∧ Within p reads) ∧
    (∀ size, ∃ r reads, argptr p n size [] = .ok (r, reads) ∧ Within p reads ∧
      ∀ q, r = some q → 0 ≤ size.toInt ∧ q.toNat + size.toInt ≤ p.sz.toNat) ∧
    ∃ r reads, argstr p n [] = .ok (r, reads) ∧ Within p reads ∧
      ∀ q len, r = some (q, len) → 0 ≤ len ∧ IsString p q.toNat len.toNat := by
  have nothing : Within p [] := nofun
  refine ⟨?_, fun size => ?_, ?_⟩
  · have spec : Spec Stops.nothing (argint p n) [] _ := fetchint_spec user nothing _
    exact spec.total
  · have spec : Spec Stops.nothing (argptr p n size) [] _ := argptr_spec user nothing n size
    exact spec.total
  · have spec : Spec Stops.nothing (argstr p n) [] _ := argstr_spec user nothing n
    exact spec.total

/-- A process of 16 bytes with esp 0: the argument is the address 12, where "hi" is. -/
def tinyProc : Proc where
  memory a := [0, 0, 0, 0, 12, 0, 0, 0, 0, 0, 0, 0, 104, 105, 0, 0].getD a 0
  sz := 16
  esp := 0

theorem arguments_inside_tinyProc : argptr tinyProc 0 4 [] = .ok (some 12, [7, 6, 5, 4]) ∧
    ∃ reads, argstr tinyProc 0 [] = .ok (some (12, 2), reads) ∧ Within tinyProc reads ∧
      IsString tinyProc 12 2 := by
  have whole := arguments_inside tinyProc (by decide) 0
  obtain ⟨r, reads, returned, within, found⟩ := whole.2.2
  have computed : argstr tinyProc 0 [] = .ok (some (12, 2), [14, 13, 12, 7, 6, 5, 4]) := by rfl
  rw [computed] at returned
  cases returned
  exact ⟨by rfl, _, computed, within, (found 12 2 rfl).2⟩

end Inside

end Xv6.Syscall
