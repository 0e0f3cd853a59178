import Xv6.Lib.Runs
import Xv6.Proc

/- The processes at the granularity of `ptable.lock`: fork takes and releases the lock
twice and writes the slot it makes in between, every other call is one section. -/
namespace Xv6.Sched

open Runs Process

/-- Where a process is between two sections: outside these calls, in fork (about to
allocate the stack of `np`, to copy the address space, or to make `np` RUNNABLE), or
in the loop of wait. -/
inductive Activity where
  | idle
  | stack (np : Fin NPROC)
  | copying (np : Fin NPROC)
  | ready (np : Fin NPROC)
  | waiting
  deriving DecidableEq

/-- What the calls did so far, with processes named by their pids. -/
inductive Entry where
  | born (pid : Int)
  | fork (parent child : Int)
  | exit (pid : Int)
  | wait (caller child : Int)
  | kill (pid : Int)
  deriving DecidableEq

/-- The table, and beside it the number of calls of allocproc that fork has made and
what happened, the latest first. -/
structure State where
  ptable : Ptable
  activity : Fin NPROC → Activity
  allocs : Nat
  history : List Entry

inductive Event where
  | allocproc (p : Fin NPROC)
  | stack (p : Fin NPROC) (kalloc : Bool)
  | copy (p : Fin NPROC) (copyuvm : Bool)
  | start (p : Fin NPROC)
  | exit (p : Fin NPROC)
  | wait (p : Fin NPROC)
  | kill (p : Fin NPROC) (pid : Int)
  | sleep (p : Fin NPROC) (chan : Chan)
  | wakeup (chan : Chan)
  | yield (p : Fin NPROC)
  | schedule (p : Fin NPROC)

/-- The slots of a zeroed table, and after `userinit` init in the first of them. -/
def Proc.zero : Proc := ⟨.unused, 0, none, none, false, 0, 0⟩

def userinit : State where
  ptable :=
    { proc := Function.update (fun _ => Proc.zero) 0
        { Proc.zero with state := .runnable, pid := 1 }
      nextpid := 2
      initproc := 0 }
  activity := fun _ => .idle
  allocs := 0
  history := [.born 1]

/-- The section of allocproc that takes an UNUSED slot. -/
def claimSlot (t : Ptable) : Option (Fin NPROC × Ptable) :=
  ((List.finRange NPROC).find? fun i => (t.proc i).state == .unused).map fun np =>
    (np, { t with nextpid := nextPid t.nextpid }.modify np fun p =>
      { p with state := .embryo, pid := t.nextpid })

/-- What fork stores in the slot before it takes the lock again. -/
def inherit (t : Ptable) (curproc np : Fin NPROC) : Ptable :=
  t.modify np fun p =>
    { p with
      parent := some curproc
      uid := (t.proc curproc).uid
      gid := (t.proc curproc).gid }

def State.Runs (s : State) (p : Fin NPROC) : Prop := (s.ptable.proc p).state = .running

instance (s : State) (p : Fin NPROC) : Decidable (s.Runs p) :=
  inferInstanceAs (Decidable (_ = _))

def State.pid (s : State) (p : Fin NPROC) : Int := (s.ptable.proc p).pid

def State.enter (s : State) (p : Fin NPROC) (activity : Activity) : State :=
  { s with activity := Function.update s.activity p activity }

def State.log (s : State) (entry : Entry) : State := { s with history := entry :: s.history }

def State.table (s : State) (t : Ptable) : State := { s with ptable := t }

def State.setState (s : State) (p : Fin NPROC) (state : Procstate) : State :=
  s.table (s.ptable.modify p fun proc => { proc with state := state })

def allocprocStep (s : State) (p : Fin NPROC) : State :=
  let s := { s with allocs := s.allocs + 1 }
  match claimSlot s.ptable with
  | some (np, t) => ((s.table t).enter p (.stack np)).log (.born s.ptable.nextpid)
  | none => s

/-- A failed allocation gives the slot back without the lock. -/
def stackStep (s : State) (p np : Fin NPROC) (kalloc : Bool) : State :=
  if kalloc then s.enter p (.copying np) else (s.setState np .unused).enter p .idle

def copyStep (s : State) (p np : Fin NPROC) (copyuvm : Bool) : State :=
  if copyuvm then (s.table (inherit s.ptable p np)).enter p (.ready np)
  else (s.setState np .unused).enter p .idle

def startStep (s : State) (p np : Fin NPROC) : State :=
  ((s.setState np .runnable).enter p .idle).log (.fork (s.pid p) (s.pid np))

def exitStep (s : State) (p : Fin NPROC) : Option State :=
  (exit s.ptable p).map fun t => (s.table t).log (.exit (s.pid p))

/-- One pass of wait; a process that went to sleep in it makes another when it runs again. -/
def waitStep (s : State) (p : Fin NPROC) : State :=
  match wait s.ptable p with
  | (none, t) => (s.table t).enter p .waiting
  | (some pid, t) => ((s.table t).enter p .idle).log (.wait (s.pid p) pid)

def killStep (s : State) (pid : Int) : State := (s.table (kill s.ptable pid).2).log (.kill pid)

/-- Only a RUNNING process takes a section of a call, and it finishes one call before it
makes the next. A process that runs again after `sleep` clears its channel. -/
def step (s : State) : Event → Option State
  | .allocproc p =>
    if s.Runs p ∧ s.activity p = .idle then some (allocprocStep s p) else none
  | .stack p kalloc =>
    match s.activity p with
    | .stack np => if s.Runs p then some (stackStep s p np kalloc) else none
    | _ => none
  | .copy p copyuvm =>
    match s.activity p with
    | .copying np => if s.Runs p then some (copyStep s p np copyuvm) else none
    | _ => none
  | .start p =>
    match s.activity p with
    | .ready np => if s.Runs p then some (startStep s p np) else none
    | _ => none
  | .exit p => if s.Runs p ∧ s.activity p = .idle then exitStep s p else none
  | .wait p =>
    if s.Runs p ∧ (s.activity p = .idle ∨ s.activity p = .waiting) then some (waitStep s p)
    else none
  | .kill p pid => if s.Runs p ∧ s.activity p = .idle then some (killStep s pid) else none
  | .sleep p chan =>
    if s.Runs p ∧ s.activity p = .idle then
      some (s.table (s.ptable.modify p fun proc =>
        { proc with chan := some chan, state := .sleeping }))
    else none
  | .wakeup chan => some (s.table (wakeup1 s.ptable chan))
  | .yield p => if s.Runs p then some (s.setState p .runnable) else none
  | .schedule p =>
    if (s.ptable.proc p).state = .runnable then
      some (s.table (s.ptable.modify p fun proc =>
        { proc with state := .running, chan := none }))
    else none

/-- The sections of a fork that meets nobody else. -/
def forkSections (t : Ptable) (p : Fin NPROC) (kalloc copyuvm : Bool) : List Event :=
  if (claimSlot t).isNone then [.allocproc p]
  else if kalloc = false then [.allocproc p, .stack p false]
  else if copyuvm = false then [.allocproc p, .stack p true, .copy p false]
  else [.allocproc p, .stack p true, .copy p true, .start p]

/-- The sections of fork, run one after the other, are `fork` as one step. -/
theorem fork_sections {s : State} {p : Fin NPROC} (runs : s.Runs p) (idle : s.activity p = .idle)
    (kalloc copyuvm : Bool) :
    (run step s (forkSections s.ptable p kalloc copyuvm)).map State.ptable =
      some (fork s.ptable p kalloc copyuvm).2 := by
  unfold forkSections fork allocproc claimSlot
  cases found : (List.finRange NPROC).find? fun i => (s.ptable.proc i).state == .unused with
  | none => simp [run, step, runs, idle, allocprocStep, claimSlot, found]
  | some np =>
    have free : (s.ptable.proc np).state = .unused := by simpa using List.find?_some found
    have apart : p ≠ np := by grind [State.Runs]
    have running : (s.ptable.proc p).state = .running := runs
    have claimed : claimSlot s.ptable = some (np,
        { s.ptable with nextpid := nextPid s.ptable.nextpid }.modify np fun q =>
          { q with state := .embryo, pid := s.ptable.nextpid }) := by
      simp [claimSlot, found]
    cases kalloc <;> cases copyuvm <;>
      simp [run, step, State.Runs, running, idle, allocprocStep, claimed, stackStep, copyStep,
        startStep, State.enter, State.log, State.table, State.setState, inherit,
        Ptable.modify, Function.update_of_ne apart]

end Xv6.Sched
