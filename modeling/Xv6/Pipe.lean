import Mathlib.Data.Fin.Basic
import Mathlib.Data.List.Basic
import Mathlib.Logic.Function.Basic

/- pipe.c: the ring of a pipe with its two wrapping counters, and what pipewrite and
piperead do while they hold the lock. -/
namespace Xv6

abbrev PIPESIZE : Nat := 512

structure Pipe where
  data : Fin PIPESIZE → UInt8
  nread : UInt32
  nwrite : UInt32
  readopen : Bool
  writeopen : Bool

namespace Pipe

/-- The page `pipealloc` got, whatever it holds. -/
def alloc (data : Fin PIPESIZE → UInt8) : Pipe := ⟨data, 0, 0, true, true⟩

def slot (counter : UInt32) : Fin PIPESIZE := ⟨counter.toNat % PIPESIZE, Nat.mod_lt _ (by decide)⟩

def full (p : Pipe) : Bool := p.nwrite == p.nread + 512

def empty (p : Pipe) : Bool := p.nread == p.nwrite

/-- `p->data[p->nwrite++ % PIPESIZE] = b`. -/
def push (p : Pipe) (b : UInt8) : Pipe :=
  { p with data := Function.update p.data (slot p.nwrite) b, nwrite := p.nwrite + 1 }

/-- How a section of pipewrite ends: all bytes stored, or -1 or asleep with bytes left. -/
inductive WriteExit where
  | done
  | failed (rest : List UInt8)
  | sleep (rest : List UInt8)
  deriving DecidableEq

def WriteExit.rest : WriteExit → List UInt8
  | .done => []
  | .failed rest | .sleep rest => rest

/-- The loop of pipewrite from where the lock is taken to where it is given up. The caller's
killed flag is read once at most, when the pipe is found full. -/
def writeLoop (killed : Bool) : Pipe → List UInt8 → Pipe × WriteExit
  | p, [] => (p, .done)
  | p, b :: rest =>
    if p.full then
      if p.readopen = false ∨ killed = true then (p, .failed (b :: rest))
      else (p, .sleep (b :: rest))
    else writeLoop killed (p.push b) rest

/-- The copy loop of piperead. -/
def readLoop : Pipe → Nat → Pipe × List UInt8
  | p, 0 => (p, [])
  | p, n + 1 =>
    if p.empty then (p, [])
    else
      let (after, bytes) := readLoop { p with nread := p.nread + 1 } n
      (after, p.data (slot p.nread) :: bytes)

inductive ReadExit where
  | done (bytes : List UInt8)
  | failed
  | sleep
  deriving DecidableEq

/-- The section of piperead that a caller with `n` bytes of room is in. -/
def readSection (killed : Bool) (p : Pipe) (n : Nat) : Pipe × ReadExit :=
  if p.empty = true ∧ p.writeopen = true then
    if killed then (p, .failed) else (p, .sleep)
  else
    let (after, bytes) := readLoop p n
    (after, .done bytes)

def close (p : Pipe) (writable : Bool) : Pipe :=
  if writable then { p with writeopen := false } else { p with readopen := false }

/-- The end for writing, or the one for reading, is still open. -/
def opened (p : Pipe) (writable : Bool) : Bool := if writable then p.writeopen else p.readopen

theorem opened_writeLoop (killed : Bool) (p : Pipe) (src : List UInt8) (writable : Bool) :
    (writeLoop killed p src).1.opened writable = p.opened writable := by
  induction src generalizing p with
  | nil => rfl
  | cons b rest ih =>
    rw [writeLoop]
    split
    · split <;> rfl
    · rw [ih]
      rfl

theorem opened_readLoop (p : Pipe) (n : Nat) (writable : Bool) :
    (readLoop p n).1.opened writable = p.opened writable := by
  induction n generalizing p with
  | zero => rfl
  | succ n ih =>
    rw [readLoop]
    split
    · rfl
    · exact ih _

theorem opened_readSection (killed : Bool) (p : Pipe) (n : Nat) (writable : Bool) :
    (readSection killed p n).1.opened writable = p.opened writable := by
  grind [readSection, opened_readLoop]

theorem opened_close (p : Pipe) (writable other : Bool) :
    (p.close writable).opened other = (p.opened other && (other != writable)) := by
  cases writable <;> cases other <;> simp [close, opened]

/-- The ring holds these bytes, the oldest first. -/
structure Holds (p : Pipe) (contents : List UInt8) : Prop where
  count : p.nwrite = p.nread + UInt32.ofNat contents.length
  room : contents.length ≤ PIPESIZE
  bytes : ∀ k b, contents[k]? = some b → p.data (slot (p.nread + UInt32.ofNat k)) = b

theorem Holds.alloc (data : Fin PIPESIZE → UInt8) : (alloc data).Holds [] :=
  ⟨rfl, by simp, by simp⟩

variable {p : Pipe} {contents : List UInt8}

/-- Distances below the size of the ring are told apart by the slot, across a wrap too. -/
theorem slot_add_inj {counter : UInt32} {j k : Nat} (close : j < k + PIPESIZE) (near : k ≤ j)
    (same : slot (counter + UInt32.ofNat j) = slot (counter + UInt32.ofNat k)) : j = k := by
  have equal := congrArg Fin.val same
  simp only [slot, UInt32.toNat_add, UInt32.toNat_ofNat'] at equal
  simp only [PIPESIZE] at close equal
  omega

theorem Holds.full_iff (holds : p.Holds contents) : p.full = true ↔ contents.length = PIPESIZE := by
  have room := holds.room
  simp only [full, beq_iff_eq, holds.count, PIPESIZE] at room ⊢
  rw [← UInt32.toNat_inj]
  simp only [UInt32.toNat_add, UInt32.toNat_ofNat', show (512 : UInt32).toNat = 512 from rfl]
  omega

theorem Holds.empty_iff (holds : p.Holds contents) : p.empty = true ↔ contents = [] := by
  have room := holds.room
  simp only [empty, beq_iff_eq, holds.count, PIPESIZE] at room ⊢
  rw [← UInt32.toNat_inj, ← List.length_eq_zero_iff]
  simp only [UInt32.toNat_add, UInt32.toNat_ofNat']
  have := p.nread.toNat_lt
  omega

theorem Holds.push (holds : p.Holds contents) (space : p.full = false) (b : UInt8) :
    (p.push b).Holds (contents ++ [b]) := by
  have room : contents.length < PIPESIZE := by
    have full := holds.full_iff
    have := holds.room
    grind
  refine ⟨?_, ?_, fun k byte inside => ?_⟩
  · change p.nwrite + 1 = p.nread + _
    rw [holds.count, List.length_append, List.length_singleton, UInt32.ofNat_add, UInt32.add_assoc]
    rfl
  · grind
  · change Function.update p.data (slot p.nwrite) b (slot (p.nread + UInt32.ofNat k)) = _
    rw [holds.count]
    by_cases last : k = contents.length
    · subst last
      simpa using inside
    · have within : k < contents.length := by
        have := (List.getElem?_eq_some_iff.mp inside).1
        rw [List.length_append, List.length_singleton] at this
        omega
      rw [List.getElem?_append_left within] at inside
      rw [Function.update_of_ne]
      · exact holds.bytes k byte inside
      · intro same
        exact last (slot_add_inj (by omega) (by omega) same.symm).symm

theorem Holds.pop {b : UInt8} (holds : p.Holds (b :: contents)) :
    p.data (slot p.nread) = b ∧ { p with nread := p.nread + 1 }.Holds contents := by
  have first := holds.bytes 0 b rfl
  refine ⟨by simpa using first, ?_, ?_, fun k byte inside => ?_⟩
  · rw [holds.count, List.length_cons, UInt32.add_assoc, Nat.add_comm, UInt32.ofNat_add]
    rfl
  · have := holds.room
    rw [List.length_cons] at this
    omega
  · have next := holds.bytes (1 + k) byte (by rw [Nat.add_comm]; exact inside)
    rw [UInt32.ofNat_add, ← UInt32.add_assoc] at next
    exact next

theorem Holds.close (holds : p.Holds contents) (writable : Bool) :
    (p.close writable).Holds contents := by
  cases writable <;> exact ⟨holds.count, holds.room, holds.bytes⟩

/-- Nothing but the ring and the counter of the writers changes, by the bytes that are not left. -/
theorem Holds.writeLoop (killed : Bool) {bytes : List UInt8} (holds : p.Holds contents) :
    let (after, exit) := writeLoop killed p bytes
    (∃ stored, bytes = stored ++ exit.rest ∧ after.Holds (contents ++ stored)) ∧
      after.nread = p.nread ∧ after.readopen = p.readopen ∧ after.writeopen = p.writeopen ∧
      (exit ≠ .done → after.full = true) ∧
      ∀ rest, exit = .sleep rest → p.readopen = true ∧ killed = false := by
  induction bytes generalizing p contents with
  | nil => exact ⟨⟨[], rfl, by simpa using holds⟩, rfl, rfl, rfl, by simp⟩
  | cons b rest ih =>
    simp only [Pipe.writeLoop]
    by_cases full : p.full = true
    · rw [if_pos full]
      split
      · refine ⟨⟨[], rfl, by simpa using holds⟩, rfl, rfl, rfl, fun _ => full, ?_⟩
        intro rest impossible
        cases impossible
      · rename_i open'
        refine ⟨⟨[], rfl, by simpa using holds⟩, rfl, rfl, rfl, fun _ => full, fun _ _ => ?_⟩
        simpa using open'
    · rw [if_neg full]
      obtain ⟨⟨stored, split, after⟩, frame⟩ := ih (holds.push (by simpa using full) b)
      exact ⟨⟨b :: stored, by rw [List.cons_append, ← split], by simpa using after⟩, frame⟩

/-- The bytes come from the front, as many as asked for or all there are. -/
theorem Holds.readLoop {n : Nat} (holds : p.Holds contents) :
    let (after, bytes) := readLoop p n
    (∃ left, contents = bytes ++ left ∧ after.Holds left ∧ (left = [] ∨ bytes.length = n)) ∧
      after.nwrite = p.nwrite ∧ after.readopen = p.readopen ∧ after.writeopen = p.writeopen := by
  induction n generalizing p contents with
  | zero => exact ⟨⟨contents, rfl, holds, .inr rfl⟩, rfl, rfl, rfl⟩
  | succ n ih =>
    simp only [Pipe.readLoop]
    by_cases empty : p.empty = true
    · rw [if_pos empty]
      have none := holds.empty_iff.mp empty
      exact ⟨⟨contents, rfl, holds, .inl none⟩, rfl, rfl, rfl⟩
    · rw [if_neg empty]
      cases contents with
      | nil => exact absurd (holds.empty_iff.mpr rfl) empty
      | cons b contents =>
        obtain ⟨first, next⟩ := holds.pop
        obtain ⟨⟨left, split, after, ends⟩, frame⟩ := ih next
        refine ⟨⟨left, ?_, after, ?_⟩, frame⟩
        · rw [List.cons_append, ← split, first]
        · simpa using ends

end Pipe

end Xv6
