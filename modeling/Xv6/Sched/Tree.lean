import Xv6.Sched

/- What the process table is for: a tree of processes. A slot is empty, being made by a
fork, up, or a zombie; the states between which the scheduler moves a process are one. -/
namespace Xv6.Sched

open Runs Process

variable {p : Fin NPROC} {s : State}

inductive Life where
  | unused | embryo | up | zombie
  deriving DecidableEq

def life : Procstate → Life
  | .unused => .unused
  | .embryo => .embryo
  | .zombie => .zombie
  | .sleeping | .runnable | .running => .up

structure Member where
  life : Life
  pid : Int
  parent : Option (Fin NPROC)
  killed : Bool

def member (p : Proc) : Member := ⟨life p.state, p.pid, p.parent, p.killed⟩

/-- The slot a process in fork is making, and whether it is its parent already. -/
def Activity.makes : Activity → Option (Fin NPROC × Bool)
  | .stack np | .copying np => some (np, false)
  | .ready np => some (np, true)
  | .idle | .waiting => none

structure Tree where
  slot : Fin NPROC → Member
  makes : Fin NPROC → Option (Fin NPROC × Bool)
  initproc : Fin NPROC
  nextpid : Int
  allocs : Nat
  history : List Entry

def Tree.put (t : Tree) (i : Fin NPROC) (m : Member) : Tree :=
  { t with slot := Function.update t.slot i m }

def Tree.make (t : Tree) (p : Fin NPROC) (child : Option (Fin NPROC × Bool)) : Tree :=
  { t with makes := Function.update t.makes p child }

def Tree.log (t : Tree) (entry : Entry) : Tree := { t with history := entry :: t.history }

/-- What becomes of a slot when the children of `p` go to `initproc`. -/
def orphan (initproc p : Fin NPROC) (m : Member) : Member :=
  if m.parent = some p then { m with parent := some initproc } else m

def Tree.adopt (t : Tree) (p : Fin NPROC) : Tree :=
  { t with slot := fun i => orphan t.initproc p (t.slot i) }

inductive Tree.Step (t : Tree) : Event → Tree → Prop where
  | stay (event : Event) : Step t event t
  | full (p : Fin NPROC) : Step t (.allocproc p) { t with allocs := t.allocs + 1 }
  | take (p np : Fin NPROC) (up : (t.slot p).life = .up) (idle : t.makes p = none)
      (free : (t.slot np).life = .unused) :
      Step t (.allocproc p)
        ((({ t with allocs := t.allocs + 1, nextpid := nextPid t.nextpid }.put np
          { t.slot np with life := .embryo, pid := t.nextpid }).make p (some (np, false))).log
          (.born t.nextpid))
  | drop (p np : Fin NPROC) (event : Event) (fails : event = .stack p false ∨ event = .copy p false)
      (makes : t.makes p = some (np, false)) :
      Step t event ((t.put np { t.slot np with life := .unused }).make p none)
  | own (p np : Fin NPROC) (makes : t.makes p = some (np, false)) :
      Step t (.copy p true)
        ((t.put np { t.slot np with parent := some p }).make p (some (np, true)))
  | start (p np : Fin NPROC) (makes : t.makes p = some (np, true)) :
      Step t (.start p) (((t.put np { t.slot np with life := .up }).make p none).log
        (.fork (t.slot p).pid (t.slot np).pid))
  | exit (p : Fin NPROC) (apart : p ≠ t.initproc) (up : (t.slot p).life = .up)
      (idle : t.makes p = none) :
      Step t (.exit p) (((t.adopt p).put p { (t.adopt p).slot p with life := .zombie }).log
        (.exit (t.slot p).pid))
  | reap (p i : Fin NPROC) (up : (t.slot p).life = .up) (child : (t.slot i).parent = some p)
      (zombie : (t.slot i).life = .zombie) :
      Step t (.wait p) ((t.put i ⟨.unused, 0, none, false⟩).log
        (.wait (t.slot p).pid (t.slot i).pid))
  | fail (p : Fin NPROC) : Step t (.wait p) (t.log (.wait (t.slot p).pid (-1)))
  | hit (p : Fin NPROC) (pid : Int) (i : Fin NPROC) (same : (t.slot i).pid = pid) :
      Step t (.kill p pid) ((t.put i { t.slot i with killed := true }).log (.kill pid))
  | miss (p : Fin NPROC) (pid : Int) : Step t (.kill p pid) (t.log (.kill pid))

def State.tree (s : State) : Tree where
  slot := fun i => member (s.ptable.proc i)
  makes := fun p => (s.activity p).makes
  initproc := s.ptable.initproc
  nextpid := s.ptable.nextpid
  allocs := s.allocs
  history := s.history

@[simp] theorem tree_modify (s : State) (i : Fin NPROC) (change : Proc → Proc) :
    (s.table (s.ptable.modify i change)).tree = s.tree.put i
      (member (change (s.ptable.proc i))) := by
  simp only [State.tree, State.table, Ptable.modify, Tree.put]
  congr 1
  funext j
  by_cases same : j = i
  · subst same
    simp
  · simp [same]

@[simp] theorem tree_enter (s : State) (p : Fin NPROC) (activity : Activity) :
    (s.enter p activity).tree = s.tree.make p activity.makes := by
  simp only [State.tree, State.enter, Tree.make]
  congr 1
  funext q
  by_cases same : q = p
  · subst same
    simp
  · simp [same]

@[simp] theorem tree_log (s : State) (entry : Entry) : (s.log entry).tree = s.tree.log entry := rfl

@[simp] theorem put_self (t : Tree) (i : Fin NPROC) : t.put i (t.slot i) = t := by
  simp [Tree.put]

/-- A process outside fork may move between idle and waiting. -/
theorem make_same {t : Tree} {child : Option (Fin NPROC × Bool)}
    (makes : t.makes p = child) : t.make p child = t := by
  rw [← makes, Tree.make, Function.update_eq_self]

@[simp] theorem tree_setState (s : State) (i : Fin NPROC) (state : Procstate) :
    (s.setState i state).tree = s.tree.put i { s.tree.slot i with life := life state } := by
  unfold State.setState
  rw [tree_modify]
  rfl

theorem member_wakeup1 (t : Ptable) (chan : Chan) (i : Fin NPROC) :
    member ((wakeup1 t chan).proc i) = member (t.proc i) := by
  grind [wakeup1, member, life]

@[simp] theorem tree_wakeup1 (s : State) (t : Ptable) (chan : Chan) :
    (s.table (wakeup1 t chan)).tree = (s.table t).tree := by
  simp only [State.tree, State.table, member_wakeup1]
  rfl

theorem reparent_initproc (p : Fin NPROC) (t : Ptable) (i : Fin NPROC) :
    (reparent p t i).initproc = t.initproc ∧ (reparent p t i).nextpid = t.nextpid := by
  simp only [reparent]
  split
  · split <;> exact ⟨rfl, rfl⟩
  · exact ⟨rfl, rfl⟩

theorem orphan_orphan {initproc : Fin NPROC} (apart : p ≠ initproc) (m : Member) :
    orphan initproc p (orphan initproc p m) = orphan initproc p m := by
  grind [orphan]

theorem member_reparent (p : Fin NPROC) (t : Ptable) (i j : Fin NPROC) :
    member ((reparent p t i).proc j) =
      if j = i then orphan t.initproc p (member (t.proc j)) else member (t.proc j) := by
  have moved : member ((t.modify i fun q => { q with parent := some t.initproc }).proc j) =
      if j = i then { member (t.proc j) with parent := some t.initproc } else member (t.proc j) :=
    by
    split
    · rename_i same
      subst same
      rw [modify_proc_self]
      rfl
    · rename_i apart
      rw [modify_proc_of_ne _ _ apart]
  simp only [reparent, orphan]
  by_cases child : (t.proc i).parent = some p
  · simp only [child, if_true]
    have same : j = i → (member (t.proc j)).parent = some p := by
      rintro rfl
      exact child
    grind [member_wakeup1]
  · simp only [child, if_false]
    split
    · rename_i same
      subst same
      rw [if_neg]
      exact child
    · rfl

theorem foldl_reparent (slots : List (Fin NPROC)) (t : Ptable) (apart : p ≠ t.initproc) :
    (slots.foldl (reparent p) t).initproc = t.initproc ∧
    (slots.foldl (reparent p) t).nextpid = t.nextpid ∧
    ∀ j, member ((slots.foldl (reparent p) t).proc j) =
      if j ∈ slots then orphan t.initproc p (member (t.proc j)) else member (t.proc j) := by
  induction slots generalizing t with
  | nil => exact ⟨rfl, rfl, fun j => by simp⟩
  | cons i rest ih =>
    obtain ⟨init, next⟩ := reparent_initproc p t i
    obtain ⟨init', next', members⟩ := ih (reparent p t i) (by rw [init]; exact apart)
    refine ⟨init'.trans init, next'.trans next, fun j => ?_⟩
    rw [List.foldl_cons, members, init, member_reparent]
    by_cases first : j = i
    · subst first
      simp [orphan_orphan apart]
    · simp [first]

theorem tree_foldl_reparent (s : State) (t : Ptable) (apart : p ≠ t.initproc)
    (same : (s.table t).tree = s.tree) :
    (s.table ((List.finRange NPROC).foldl (reparent p) t)).tree = s.tree.adopt p := by
  obtain ⟨init, next, members⟩ := foldl_reparent (List.finRange NPROC) t apart
  rw [← same]
  simp only [State.tree, State.table, Tree.adopt, init, next, members, List.mem_finRange, if_true]

theorem tree_zombie {t : Ptable} {tree : Tree} (before : (s.table t).tree = tree) :
    (s.table (t.modify p fun q => { q with state := .zombie })).tree =
      tree.put p { tree.slot p with life := .zombie } := by
  rw [← before]
  exact tree_setState (s.table t) p .zombie

theorem exit_tree {s' : State} (exited : exitStep s p = some s') : p ≠ s.ptable.initproc ∧
      s'.tree = ((s.tree.adopt p).put p { (s.tree.adopt p).slot p with life := .zombie }).log
        (.exit (s.tree.slot p).pid) := by
  simp only [exitStep, exit, Option.map_eq_some_iff] at exited
  obtain ⟨t, left, rfl⟩ := exited
  split at left
  · cases left
  rename_i apart
  refine ⟨apart, ?_⟩
  cases left
  rw [tree_log]
  apply congrArg fun tree : Tree => tree.log (.exit (s.pid p))
  apply tree_zombie
  split
  · exact tree_foldl_reparent s _ apart (tree_wakeup1 s s.ptable _)
  · exact tree_foldl_reparent s s.ptable apart rfl

/-- A process that moves between SLEEPING, RUNNABLE and RUNNING stays the same member. -/
theorem tree_move (s : State) (i : Fin NPROC) (change : Proc → Proc)
    (same : member (change (s.ptable.proc i)) = member (s.ptable.proc i)) :
    (s.table (s.ptable.modify i change)).tree = s.tree := by
  rw [tree_modify, same]
  exact put_self s.tree i

theorem up_of_runs (runs : s.Runs p) : (s.tree.slot p).life = .up := by
  change life (s.ptable.proc p).state = .up
  rw [show (s.ptable.proc p).state = .running from runs]
  rfl

theorem allocproc_tree (runs : s.Runs p) (idle : s.activity p = .idle) :
    s.tree.Step (.allocproc p) (allocprocStep s p).tree := by
  unfold allocprocStep claimSlot
  dsimp only
  cases found : (List.finRange NPROC).find? fun i => (s.ptable.proc i).state == .unused with
  | none => exact .full p
  | some np =>
    have free : (s.ptable.proc np).state = .unused := by simpa using List.find?_some found
    simp only [Option.map_some, tree_log, tree_enter]
    have taken := tree_modify
      ({ s with allocs := s.allocs + 1 }.table
      { s.ptable with nextpid := nextPid s.ptable.nextpid }) np
      fun q => { q with state := .embryo, pid := s.ptable.nextpid }
    refine Eq.mp (congrArg (s.tree.Step (.allocproc p)) ?_)
      (Tree.Step.take p np (up_of_runs runs) ?_ ?_)
    · exact congrArg (fun tree : Tree => (tree.make p (some (np, false))).log
        (.born s.ptable.nextpid)) taken.symm
    · simp [State.tree, idle, Activity.makes]
    · simp [State.tree, member, free, life]

theorem wait_tree (runs : s.Runs p) (idle : s.activity p = .idle ∨ s.activity p = .waiting) :
    s.tree.Step (.wait p) (waitStep s p).tree := by
  have makes : s.tree.makes p = none := by
    rcases idle with idle | idle <;> simp [State.tree, idle, Activity.makes]
  unfold waitStep wait
  dsimp only
  cases found : (List.finRange NPROC).find? fun i =>
      (s.ptable.proc i).parent == some p && (s.ptable.proc i).state == .zombie with
  | some i =>
    have passed := List.find?_some found
    simp only [Bool.and_eq_true, beq_iff_eq] at passed
    simp only [tree_log, tree_enter, tree_modify]
    rw [make_same (by exact makes)]
    exact .reap p i (up_of_runs runs) passed.1 (by simp [State.tree, member, passed.2, life])
  | none =>
    by_cases done : (List.finRange NPROC).any (fun i => (s.ptable.proc i).parent == some p) =
        false ∨ (s.ptable.proc p).killed = true
    · simp only [if_pos done, tree_log, tree_enter]
      rw [make_same (by exact makes)]
      exact .fail p
    · simp only [if_neg done]
      rw [tree_enter, tree_move, make_same (by exact makes)]
      · exact .stay _
      · simp [member, show (s.ptable.proc p).state = .running from runs, life]

theorem kill_tree (s : State) (p : Fin NPROC) (pid : Int) :
    s.tree.Step (.kill p pid) (killStep s pid).tree := by
  unfold killStep kill
  rw [tree_log]
  cases found : (List.finRange NPROC).find? fun i => (s.ptable.proc i).pid == pid with
  | none => exact .miss p pid
  | some i =>
    have same : (s.ptable.proc i).pid = pid := by simpa using List.find?_some found
    -- A sleeper that is woken stays up.
    have flagged : ∀ q : Proc, member { q with
        killed := true, state := if q.state = .sleeping then .runnable else q.state } =
          { member q with killed := true } := by
      grind [member, life]
    rw [tree_modify, flagged]
    exact .hit p pid i same

/-- Each section of the code is a step of the tree. -/
theorem step_tree {s' : State} {event : Event} (taken : step s event = some s') :
    s.tree.Step event s'.tree := by
  cases event with
  | allocproc p =>
    simp only [step, Option.ite_none_right_eq_some, Option.some.injEq] at taken
    obtain ⟨⟨runs, idle⟩, rfl⟩ := taken
    exact allocproc_tree runs idle
  | stack p kalloc =>
    simp only [step] at taken
    split at taken
    · rename_i np making
      simp only [Option.ite_none_right_eq_some, Option.some.injEq] at taken
      obtain ⟨-, rfl⟩ := taken
      have makes : s.tree.makes p = some (np, false) := by simp [State.tree, making, Activity.makes]
      unfold stackStep
      split
      · rw [tree_enter, make_same (by exact makes)]
        exact .stay _
      · rename_i fails
        simp only [tree_enter, tree_setState]
        exact .drop p np _ (by simp [fails]) makes
    · cases taken
  | copy p copyuvm =>
    simp only [step] at taken
    split at taken
    · rename_i np making
      simp only [Option.ite_none_right_eq_some, Option.some.injEq] at taken
      obtain ⟨-, rfl⟩ := taken
      have makes : s.tree.makes p = some (np, false) := by simp [State.tree, making, Activity.makes]
      unfold copyStep
      split
      · rename_i copied
        subst copied
        simp only [inherit, tree_enter, tree_modify]
        exact .own p np makes
      · rename_i fails
        simp only [tree_enter, tree_setState]
        exact .drop p np _ (by simp [fails]) makes
    · cases taken
  | start p =>
    simp only [step] at taken
    split at taken
    · rename_i np making
      simp only [Option.ite_none_right_eq_some, Option.some.injEq] at taken
      obtain ⟨-, rfl⟩ := taken
      simp only [startStep, tree_log, tree_enter, tree_setState]
      exact .start p np (by simp [State.tree, making, Activity.makes])
    · cases taken
  | exit p =>
    simp only [step, Option.ite_none_right_eq_some] at taken
    obtain ⟨⟨runs, idle⟩, exited⟩ := taken
    obtain ⟨apart, after⟩ := exit_tree exited
    rw [after]
    exact .exit p apart (up_of_runs runs) (by simp [State.tree, idle, Activity.makes])
  | wait p =>
    simp only [step, Option.ite_none_right_eq_some, Option.some.injEq] at taken
    obtain ⟨⟨runs, idle⟩, rfl⟩ := taken
    exact wait_tree runs idle
  | kill p pid =>
    simp only [step, Option.ite_none_right_eq_some, Option.some.injEq] at taken
    obtain ⟨-, rfl⟩ := taken
    exact kill_tree s p pid
  | sleep p chan =>
    simp only [step, Option.ite_none_right_eq_some, Option.some.injEq] at taken
    obtain ⟨⟨runs, -⟩, rfl⟩ := taken
    rw [tree_move]
    · exact .stay _
    · simp [member, show (s.ptable.proc p).state = .running from runs, life]
  | wakeup chan =>
    cases taken
    rw [tree_wakeup1]
    exact .stay _
  | yield p =>
    simp only [step, Option.ite_none_right_eq_some, Option.some.injEq] at taken
    obtain ⟨runs, rfl⟩ := taken
    unfold State.setState
    rw [tree_move]
    · exact .stay _
    · simp [member, show (s.ptable.proc p).state = .running from runs, life]
  | schedule p =>
    simp only [step, Option.ite_none_right_eq_some, Option.some.injEq] at taken
    obtain ⟨runnable, rfl⟩ := taken
    rw [tree_move]
    · exact .stay _
    · simp [member, runnable, life]

end Xv6.Sched
