import Mathlib.Logic.Function.Basic
import Mathlib.Data.List.FinRange
import Xv6.Params

/- proc.c: the process table at the granularity of `ptable.lock`. A page that
`kalloc` or `copyuvm` cannot supply is a Boolean argument of the step. -/
namespace Xv6.Process

inductive Procstate where
  | unused | embryo | sleeping | runnable | running | zombie
  deriving DecidableEq

/-- What a process sleeps on: a process (in `wait`) or another kernel address. -/
inductive Chan where
  | proc (slot : Fin NPROC)
  | addr (address : Nat)
  deriving DecidableEq

structure Proc where
  state : Procstate
  pid : Int
  parent : Option (Fin NPROC)
  chan : Option Chan
  killed : Bool
  uid : Int
  gid : Int

structure Ptable where
  proc : Fin NPROC → Proc
  nextpid : Int
  initproc : Fin NPROC

def Ptable.modify (t : Ptable) (slot : Fin NPROC) (change : Proc → Proc) : Ptable :=
  { t with proc := Function.update t.proc slot (change (t.proc slot)) }

/-- `nextpid++` on a 32-bit int. -/
def nextPid (pid : Int) : Int := (pid + 1).bmod (2 ^ 32)

def allocproc (t : Ptable) (kalloc : Bool) : Option (Fin NPROC) × Ptable :=
  match (List.finRange NPROC).find? fun i => (t.proc i).state == .unused with
  | none => (none, t)
  | some np =>
    let found := { t with nextpid := nextPid t.nextpid }.modify np fun p =>
      { p with state := .embryo, pid := t.nextpid }
    if kalloc then (some np, found)
    else (none, found.modify np fun p => { p with state := .unused })

def fork (t : Ptable) (curproc : Fin NPROC) (kalloc copyuvm : Bool) : Int × Ptable :=
  match allocproc t kalloc with
  | (none, t) => (-1, t)
  | (some np, t) =>
    if copyuvm then
      ((t.proc np).pid, t.modify np fun p =>
        { p with
          parent := some curproc
          uid := (t.proc curproc).uid
          gid := (t.proc curproc).gid
          state := .runnable })
    else (-1, t.modify np fun p => { p with state := .unused })

def wakeup1 (t : Ptable) (chan : Chan) : Ptable :=
  { t with proc := fun i =>
      if (t.proc i).state = .sleeping ∧ (t.proc i).chan = some chan then
        { t.proc i with state := .runnable }
      else t.proc i }

/-- One iteration of the loop that passes abandoned children to init. -/
def reparent (curproc : Fin NPROC) (t : Ptable) (i : Fin NPROC) : Ptable :=
  if (t.proc i).parent = some curproc then
    let t := t.modify i fun p => { p with parent := some t.initproc }
    if (t.proc i).state = .zombie then wakeup1 t (.proc t.initproc) else t
  else t

/-- `exit`, up to its call of `sched`; `none` is the panic "init exiting". -/
def exit (t : Ptable) (curproc : Fin NPROC) : Option Ptable :=
  if curproc = t.initproc then none
  else
    let t := match (t.proc curproc).parent with
      | some parent => wakeup1 t (.proc parent)
      | none => t
    let t := (List.finRange NPROC).foldl (reparent curproc) t
    some (t.modify curproc fun p => { p with state := .zombie })

/-- One pass of `wait` over the table: a reaped pid, -1, or a process gone to sleep. -/
def wait (t : Ptable) (curproc : Fin NPROC) : Option Int × Ptable :=
  let child i := (t.proc i).parent == some curproc
  match (List.finRange NPROC).find? fun i => child i && (t.proc i).state == .zombie with
  | some i =>
    (some (t.proc i).pid, t.modify i fun p =>
      { p with pid := 0, parent := none, killed := false, state := .unused })
  | none =>
    if (List.finRange NPROC).any child = false ∨ (t.proc curproc).killed then (some (-1), t)
    else (none, t.modify curproc fun p =>
      { p with chan := some (.proc curproc), state := .sleeping })

def kill (t : Ptable) (pid : Int) : Int × Ptable :=
  match (List.finRange NPROC).find? fun i => (t.proc i).pid == pid with
  | some i =>
    (0, t.modify i fun p =>
      { p with killed := true, state := if p.state = .sleeping then .runnable else p.state })
  | none => (-1, t)

@[simp] theorem modify_proc_self (t : Ptable) (slot : Fin NPROC) (change : Proc → Proc) :
    (t.modify slot change).proc slot = change (t.proc slot) := by
  simp [Ptable.modify]

theorem modify_proc_of_ne (t : Ptable) {slot other : Fin NPROC} (change : Proc → Proc)
    (apart : other ≠ slot) : (t.modify slot change).proc other = t.proc other := by
  simp [Ptable.modify, apart]

/-- Credentials survive a change that keeps them in the one slot it changes. -/
theorem modify_uid (t : Ptable) (slot : Fin NPROC) (change : Proc → Proc)
    (keeps : ∀ p, (change p).uid = p.uid) (i : Fin NPROC) :
    ((t.modify slot change).proc i).uid = (t.proc i).uid := by
  grind [modify_proc_self, modify_proc_of_ne]

theorem wakeup1_uid (t : Ptable) (chan : Chan) (i : Fin NPROC) :
    ((wakeup1 t chan).proc i).uid = (t.proc i).uid := by
  simp only [wakeup1]
  split <;> rfl

theorem reparent_uid (curproc : Fin NPROC) (t : Ptable) (slot i : Fin NPROC) :
    ((reparent curproc t slot).proc i).uid = (t.proc i).uid := by
  have moved := modify_uid t slot (fun p => { p with parent := some t.initproc })
    (fun _ => rfl) i
  grind [reparent, wakeup1_uid]

theorem foldl_reparent_uid (curproc : Fin NPROC) (t : Ptable) (slots : List (Fin NPROC))
    (i : Fin NPROC) : ((slots.foldl (reparent curproc) t).proc i).uid = (t.proc i).uid := by
  induction slots generalizing t with
  | nil => rfl
  | cons slot rest ih => rw [List.foldl_cons, ih, reparent_uid]

theorem exit_uid {t t' : Ptable} {curproc : Fin NPROC} (exited : exit t curproc = some t')
    (i : Fin NPROC) : (t'.proc i).uid = (t.proc i).uid := by
  grind [exit, Option.some.inj, modify_uid, foldl_reparent_uid, wakeup1_uid]

theorem wait_uid (t : Ptable) (curproc i : Fin NPROC) :
    ((wait t curproc).2.proc i).uid = (t.proc i).uid := by
  grind [wait, modify_uid]

theorem kill_uid (t : Ptable) (pid : Int) (i : Fin NPROC) :
    ((kill t pid).2.proc i).uid = (t.proc i).uid := by
  grind [kill, modify_uid]

/-- `allocproc` only touches a slot that was UNUSED, and leaves its credentials alone. -/
theorem allocproc_spec (t : Ptable) (kalloc : Bool) :
    (∀ i, (t.proc i).state ≠ .unused → (allocproc t kalloc).2.proc i = t.proc i) ∧
    (∀ i, (t.proc i).state = .unused → (allocproc t kalloc).1 ≠ some i →
      ((allocproc t kalloc).2.proc i).state = .unused) ∧
    ∀ np, (allocproc t kalloc).1 = some np → (t.proc np).state = .unused := by
  unfold allocproc
  split
  · exact ⟨fun _ _ => rfl, fun _ free _ => free, fun _ impossible => by cases impossible⟩
  rename_i np found
  have free : (t.proc np).state = .unused := by simpa using List.find?_some found
  have apart : ∀ i, (t.proc i).state ≠ .unused → i ≠ np := by
    rintro i live rfl
    exact live free
  split
  · refine ⟨fun i live => ?_, fun i unused other => ?_, fun slot chosen => ?_⟩
    · rw [modify_proc_of_ne _ _ (apart i live)]
    · have apart : i ≠ np := fun same => other (by rw [same])
      rw [modify_proc_of_ne _ _ apart]
      exact unused
    · cases chosen
      exact free
  · refine ⟨fun i live => ?_, fun i unused _ => ?_, fun _ impossible => by cases impossible⟩
    · rw [modify_proc_of_ne _ _ (apart i live), modify_proc_of_ne _ _ (apart i live)]
    · grind [modify_proc_self, modify_proc_of_ne]

/-- A fork changes no process that exists, and its child has the parent's credentials. -/
theorem fork_spec (t : Ptable) (curproc : Fin NPROC) (kalloc copyuvm : Bool)
    (live : (t.proc curproc).state ≠ .unused) :
    (∀ i, (t.proc i).state ≠ .unused → (fork t curproc kalloc copyuvm).2.proc i = t.proc i) ∧
    ∀ i, (t.proc i).state = .unused → ((fork t curproc kalloc copyuvm).2.proc i).state ≠ .unused →
      ((fork t curproc kalloc copyuvm).2.proc i).uid = (t.proc curproc).uid := by
  obtain ⟨others, idle, chosen⟩ := allocproc_spec t kalloc
  unfold fork
  split
  · grind
  rename_i np alloc allocated
  rw [allocated] at others idle chosen
  have apart : ∀ i, (t.proc i).state ≠ .unused → i ≠ np := by
    rintro i used rfl
    exact used (chosen i rfl)
  split
  · refine ⟨fun i used => ?_, fun i unused used => ?_⟩
    · rw [modify_proc_of_ne _ _ (apart i used)]
      exact others i used
    · grind [modify_proc_self, modify_proc_of_ne]
  · refine ⟨fun i used => ?_, fun i unused used => ?_⟩
    · rw [modify_proc_of_ne _ _ (apart i used)]
      exact others i used
    · grind [modify_proc_self, modify_proc_of_ne]

end Xv6.Process
