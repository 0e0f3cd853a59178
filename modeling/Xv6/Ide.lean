import Mathlib.Data.Fintype.Card
import Mathlib.Data.Fintype.Pi
import Xv6.Lib.Chain
import Xv6.Lib.Exec
import Xv6.Lib.Runs
import Xv6.Params

/- The disk driver of ide.c. Callers and the interrupt handler hold `idelock` from its acquire to a
sleep or a release, so that these parts are the steps; the disk raises one interrupt for each
command. What was queued and completed so far is recorded beside the state of the driver. -/
namespace Xv6.Ide

open Exec Chain Runs

abbrev SECTOR_SIZE : Nat := 512

/-- `lock` is the process that holds the sleep-lock. -/
structure Buf (Data : Type) where
  valid : Bool
  dirty : Bool
  dev : Nat
  blockno : Nat
  lock : Option (Fin NPROC)
  data : Data

/-- A command that the disk was given, and the buffer it was for. -/
structure Command where
  buf : Fin NBUF
  drive : Nat
  sector : Nat
  sectors : Nat
  write : Bool

/-- A process inside of `iderw`: its request is the one of that number. -/
structure Call where
  buf : Fin NBUF
  number : Nat
  asleep : Bool

structure State (Data : Type) where
  buf : Fin NBUF → Buf Data
  qnext : Fin NBUF → Option (Fin NBUF)
  idequeue : Option (Fin NBUF)
  havedisk1 : Bool
  disk : Nat → Nat → Data
  started : List Command
  interrupts : Nat
  queued : List (Fin NBUF)
  completed : List (Fin NBUF)
  calls : Fin NPROC → Option Call

variable {Data : Type}

/-- `(b->flags & (B_VALID|B_DIRTY)) == B_VALID`. -/
def Buf.done (b : Buf Data) : Bool := b.valid && !b.dirty

def State.setBuf (s : State Data) (b : Fin NBUF) (buf : Buf Data) : State Data :=
  { s with buf := Function.update s.buf b buf }

def State.setCall (s : State Data) (p : Fin NPROC) (call : Option Call) : State Data :=
  { s with calls := Function.update s.calls p call }

/-- Everybody who sleeps on the buffer is woken. -/
def State.wakeup (s : State Data) (b : Fin NBUF) : State Data :=
  { s with calls := fun p => (s.calls p).map fun c =>
      if c.buf = b then { c with asleep := false } else c }

def idestart : Option (Fin NBUF) → Exec (State Data) Unit
  | none => Exec.panic "idestart"
  | some b => do
    let s ← get
    if FSSIZE ≤ (s.buf b).blockno then Exec.panic "incorrect blockno"
    else if 255 < BSIZE / SECTOR_SIZE then Exec.panic "idestart"
    else
      let drive := (s.buf b).dev % 2
      let sector := (s.buf b).blockno * (BSIZE / SECTOR_SIZE)
      modify fun s => { s with
        started := s.started ++ [⟨b, drive, sector, BSIZE / SECTOR_SIZE, (s.buf b).dirty⟩] }
      when ((s.buf b).dirty = true) (modify fun s => { s with
        disk := Function.update s.disk drive (Function.update (s.disk drive) sector
          (s.buf b).data) })

/-- The data of the last command go to the buffer. -/
def insl (b : Fin NBUF) (s : State Data) : State Data :=
  match s.started.getLast? with
  | none => s
  | some c => s.setBuf b { s.buf b with data := s.disk c.drive c.sector }

/-- `fine` is what `idewait(1)` says of the disk. -/
def ideintr (fine : Bool) : Exec (State Data) Unit := do
  let s ← get
  match s.idequeue with
  | none => return
  | some b =>
    modify fun s => { s with idequeue := s.qnext b }
    -- Read data if needed.
    when ((s.buf b).dirty = false ∧ fine = true) (modify (insl b))
    modify fun s => s.setBuf b { s.buf b with valid := true, dirty := false }
    modify fun s => { s with completed := s.completed ++ [b] }
    modify fun s => s.wakeup b
    -- Start disk on next buf in queue.
    let s ← get
    when (s.idequeue ≠ none) (idestart s.idequeue)

/-- Append b to idequeue. -/
def append (b : Fin NBUF) : Exec (State Data) Unit := do
  modify fun s => { s with qnext := Function.update s.qnext b none }
  let s ← get
  match lastPlace s.qnext s.idequeue (NBUF + 1) none with
  | none => wait
  | some pp => modify fun s => { s with
      idequeue := (store s.qnext s.idequeue pp (some b)).1
      qnext := (store s.qnext s.idequeue pp (some b)).2
      queued := s.queued ++ [b] }

/-- The loop of `iderw`: it sleeps, or it returns. -/
def await (p : Fin NPROC) (c : Call) : Exec (State Data) Unit := do
  let s ← get
  if (s.buf c.buf).done = true then modify fun s => s.setCall p none
  else modify fun s => s.setCall p (some { c with asleep := true })

def iderw (p : Fin NPROC) (b : Fin NBUF) : Exec (State Data) Unit := do
  let s ← get
  if (s.buf b).lock ≠ some p then Exec.panic "iderw: buf not locked"
  else if (s.buf b).done = true then Exec.panic "iderw: nothing to do"
  else if (s.buf b).dev ≠ 0 ∧ s.havedisk1 = false then Exec.panic "iderw: ide disk 1 not present"
  else
    append b
    -- Start disk if necessary.
    let s' ← get
    when (s'.idequeue = some b) (idestart (some b))
    await p ⟨b, s.queued.length, false⟩

/-- What happens next. A process that is killed is woken. A buffer that is in no call of `iderw`
may be locked, filled and given to another block by its users. -/
inductive Event (Data : Type) where
  | call (p : Fin NPROC) (b : Fin NBUF)
  | wake (p : Fin NPROC)
  | kill (p : Fin NPROC)
  | intr (fine : Bool)
  | touch (b : Fin NBUF) (buf : Buf Data)

def step (s : State Data) : Event Data → Option (State Data)
  | .call p b => if s.calls p = none then (iderw p b s).toOption.map Prod.snd else none
  | .wake p =>
    match s.calls p with
    | some c => if c.asleep = false then (await p c s).toOption.map Prod.snd else none
    | none => none
  | .kill p => some (s.setCall p ((s.calls p).map fun c => { c with asleep := false }))
  | .intr fine =>
    -- One interrupt for each command, and no other.
    if s.interrupts < s.started.length then
      (ideintr fine { s with interrupts := s.interrupts + 1 }).toOption.map Prod.snd
    else none
  | .touch b buf => if ∀ p, (s.calls p).map Call.buf ≠ some b then some (s.setBuf b buf) else none

/-- After `ideinit`: no request yet. -/
def initial (buf : Fin NBUF → Buf Data) (qnext : Fin NBUF → Option (Fin NBUF)) (havedisk1 : Bool)
    (disk : Nat → Nat → Data) : State Data where
  buf := buf
  qnext := qnext
  idequeue := none
  havedisk1 := havedisk1
  disk := disk
  started := []
  interrupts := 0
  queued := []
  completed := []
  calls := fun _ => none

end Xv6.Ide
