import Xv6.Sched.Family

/- Whom kill hits. `kill` compares pids only, and an UNUSED slot has one too: 0, or the
pid of a fork that failed. The flag then waits there for the next process. -/
namespace Xv6.Sched

open Runs Process

/-- `kill` was called with this pid after the process was created. -/
def KilledSince (history : List Entry) (pid : Int) : Prop :=
  ∃ later earlier, history = later ++ .born pid :: earlier ∧ .kill pid ∈ later

theorem KilledSince.cons {history : List Entry} {pid : Int} (killed : KilledSince history pid)
    (entry : Entry) : KilledSince (entry :: history) pid := by
  obtain ⟨later, earlier, rfl, member⟩ := killed
  exact ⟨entry :: later, earlier, rfl, List.mem_cons_of_mem _ member⟩

theorem KilledSince.of_born {history : List Entry} {pid : Int} (born : .born pid ∈ history) :
    KilledSince (.kill pid :: history) pid := by
  obtain ⟨later, earlier, rfl⟩ := List.append_of_mem born
  exact ⟨.kill pid :: later, earlier, rfl, List.mem_cons_self⟩

/-- Kill is given no pid that an UNUSED slot holds, and a fork that fails gives back no
slot that was killed while it was made. -/
def Spares (s : State) : Event → Prop
  | .kill _ pid => ∀ i, (s.ptable.proc i).state = .unused → (s.ptable.proc i).pid ≠ pid
  | .stack p false | .copy p false =>
    ∀ np owned, (s.activity p).makes = some (np, owned) → (s.ptable.proc np).killed = false
  | _ => True

instance (s : State) (event : Event) : Decidable (Spares s event) := by
  unfold Spares
  split <;> infer_instance

/-- Processes in use were created, and are flagged only if they were killed since. -/
structure Tree.Accountable (t : Tree) : Prop where
  born : ∀ i, (t.slot i).life ≠ .unused → .born (t.slot i).pid ∈ t.history
  live : ∀ i, (t.slot i).killed = true → (t.slot i).life ≠ .unused
  killed : ∀ i, (t.slot i).killed = true → KilledSince t.history (t.slot i).pid

theorem State.unused_iff (s : State) (i : Fin NPROC) :
    (s.tree.slot i).life = .unused ↔ (s.ptable.proc i).state = .unused := by
  change life (s.ptable.proc i).state = .unused ↔ _
  cases (s.ptable.proc i).state <;> simp [life]

theorem accountable_step {s s' : State} {event : Event} (accountable : s.tree.Accountable)
    (rooted : s.tree.Rooted) (spares : Spares s event) (taken : step s event = some s') :
    s'.tree.Accountable := by
  have moves := step_tree taken
  obtain ⟨born, live, killed⟩ := accountable
  have older : ∀ entry i, (s.tree.slot i).killed = true →
      KilledSince (entry :: s.tree.history) (s.tree.slot i).pid :=
    fun entry i flagged => (killed i flagged).cons entry
  generalize s'.tree = t' at moves
  cases moves with
  | stay => exact ⟨born, live, killed⟩
  | full p => exact ⟨born, live, killed⟩
  | take p np up idle free =>
    constructor <;> simp only [Tree.put, Tree.make, Tree.log, Function.update_apply] <;> grind
  | drop p np event fails makes =>
    have clean : (s.tree.slot np).killed = false := by
      rcases fails with rfl | rfl <;> exact spares np false makes
    constructor <;> simp only [Tree.put, Tree.make, Function.update_apply] <;> grind
  | own p np makes =>
    constructor <;> simp only [Tree.put, Tree.make, Function.update_apply] <;> grind
  | start p np makes =>
    have embryo := (rooted.made p np true makes).2.1
    constructor <;> simp only [Tree.put, Tree.make, Tree.log, Function.update_apply] <;> grind
  | exit p other up idle =>
    constructor <;>
      simp only [Tree.put, Tree.log, Tree.adopt, orphan, Function.update_apply] <;> grind
  | reap p i up mine zombie =>
    constructor <;> simp only [Tree.put, Tree.log, Function.update_apply] <;> grind
  | fail p => constructor <;> simp only [Tree.log] <;> grind
  | hit p pid i same =>
    have used : (s.tree.slot i).life ≠ .unused := by
      intro unused
      exact spares i ((s.unused_iff i).mp unused) same
    have since := KilledSince.of_born (born i used)
    constructor <;> simp only [Tree.put, Tree.log, Function.update_apply] <;> grind
  | miss p pid => constructor <;> simp only [Tree.log] <;> grind

theorem kill_spec (t : Ptable) (pid : Int) : (∃ i, (t.proc i).pid = pid ∧ (kill t pid).1 = 0 ∧
      ∀ j, j ≠ i → (kill t pid).2.proc j = t.proc j) ∨
    (∀ i, (t.proc i).pid ≠ pid) ∧ (kill t pid).1 = -1 := by
  unfold kill
  cases found : (List.finRange NPROC).find? fun i => (t.proc i).pid == pid with
  | some i =>
    have same : (t.proc i).pid = pid := by simpa using List.find?_some found
    grind [modify_proc_of_ne]
  | none => exact .inr ⟨by simpa using found, rfl⟩

theorem kill_eq_zero_iff (t : Ptable) (pid : Int) :
    (kill t pid).1 = 0 ↔ ∃ i, (t.proc i).pid = pid := by
  rcases kill_spec t pid with ⟨i, same, hit, -⟩ | ⟨nobody, missed⟩
  · simp only [hit, true_iff]
    exact ⟨i, same⟩
  · rw [missed]
    simpa using nobody

def State.Live (s : State) (i : Fin NPROC) : Prop := (s.ptable.proc i).state ≠ .unused

instance (s : State) (i : Fin NPROC) : Decidable (s.Live i) :=
  inferInstanceAs (Decidable (_ ≠ _))

/-- Nonzero pids are distinct over all slots, and those in use are nonzero. -/
theorem State.Sound.pids {s : State} (sound : s.Sound) (fewer : s.allocs < 2 ^ 31 - 1) :
    (∀ i, s.Live i → 0 < s.pid i) ∧ ∀ i j, s.Live i → s.pid i = s.pid j → i = j := by
  have numbered := sound.numbered fewer
  have positive : ∀ i, s.Live i → 0 < s.pid i :=
    fun i live => numbered.positive i fun unused => live ((s.unused_iff i).mp unused)
  exact ⟨positive, fun i j live same => numbered.distinct i j same (positive i live).ne'⟩

theorem accountable_userinit : userinit.tree.Accountable := by
  refine ⟨fun i live => ?_, fun i flagged => ?_, fun i flagged => ?_⟩
  · grind [userinit_slot, State.tree, userinit]
  all_goals
    grind [userinit_slot]

/-- In a state reached with fewer than 2^31 - 1 calls of allocproc, the pids in use are
positive and distinct, and a kill of one of them changes no other slot. Kill returns 0
exactly for the pids in use if and only if no UNUSED slot holds the pid it is given; in a
run whose kills and failing forks all keep to that, a process is flagged only if kill was
called with its pid since it was created. -/
theorem kill_hits_live_iff (events : List Event) (final : State)
    (reached : run step userinit events = some final) (fewer : final.allocs < 2 ^ 31 - 1) :
    (∀ i, final.Live i → 0 < final.pid i) ∧
    (∀ i j, final.Live i → final.Live j → final.pid i = final.pid j → i = j) ∧
    (∀ i j, final.Live i → j ≠ i →
      (kill final.ptable (final.pid i)).2.proc j = final.ptable.proc j) ∧
    (∀ pid, ((kill final.ptable pid).1 = 0 ↔ ∃ i, final.Live i ∧ final.pid i = pid) ↔
      ∀ i, ¬ final.Live i → final.pid i ≠ pid) ∧
    (Meets step Spares userinit events → ∀ i, final.Live i →
      (final.ptable.proc i).killed = true → KilledSince final.history (final.pid i)) := by
  obtain ⟨positive, distinct⟩ := (sound_of_run reached).pids fewer
  refine ⟨positive, fun i j live _ same => distinct i j live same, fun i j live other => ?_,
    fun pid => ?_, fun meets i _ flagged => ?_⟩
  · rcases kill_spec final.ptable (final.pid i) with ⟨hit, same, -, others⟩ | ⟨nobody, -⟩
    · have mine : i = hit := distinct i hit live same.symm
      exact others j (mine ▸ other)
    · exact (nobody i rfl).elim
  · rw [kill_eq_zero_iff]
    constructor
    · intro exact i unused same
      obtain ⟨j, live, equal⟩ := exact.mp ⟨i, same⟩
      have slot : j = i := distinct j i live (equal.trans same.symm)
      exact unused (slot ▸ live)
    · intro spared
      refine ⟨fun ⟨i, same⟩ => ⟨i, ?_, same⟩, fun ⟨i, _, same⟩ => ⟨i, same⟩⟩
      by_contra unused
      exact spared i unused same
  · have kept : final.Sound ∧ final.tree.Accountable :=
      run_preserves (fun (s : State) _ _ ok (inv : s.Sound ∧ s.tree.Accountable) taken =>
        ⟨inv.1.step taken, accountable_step inv.2 inv.1.rooted ok taken⟩) meets reached
        ⟨@sound_of_run [] _ rfl, accountable_userinit⟩
    exact kept.2.killed i flagged

/-- init forks a child and the child is scheduled. -/
def forkChild : List Event :=
  [.allocproc 0, .stack 0 true, .copy 0 true, .start 0, .yield 0, .schedule 1]

/-- A child that is killed by its pid before it first runs. -/
theorem kill_hits_live_iff_child : ∃ final,
    run step userinit (.schedule 0 :: forkChild.take 4 ++ [.kill 0 2]) = some final ∧
      (final.ptable.proc 1).killed = true ∧ KilledSince final.history 2 := by
  have ran : (run step userinit (.schedule 0 :: forkChild.take 4 ++ [.kill 0 2])).map
      (fun s => (s.allocs, s.pid 1, s.ptable.proc 1 |>.killed, decide (s.Live 1))) =
        some (1, 2, true, true) := by decide +kernel
  obtain ⟨final, reached, facts⟩ := Option.map_eq_some_iff.mp ran
  simp only [Prod.mk.injEq, decide_eq_true_eq] at facts
  obtain ⟨allocs, pid, killed, live⟩ := facts
  have since := (kill_hits_live_iff _ final reached (by omega)).2.2.2.2 (by decide +kernel) 1
    live killed
  rw [pid] at since
  exact ⟨final, reached, killed, since⟩

/-- kill(0) returns 0 although no process has that pid, and flags the slot that the next
fork takes: its child is scheduled with `killed` set, and nobody has killed it. -/
theorem kill_hits_unused :
    (¬ ∀ (events : List Event) (s : State), run step userinit events = some s →
      ∀ pid, (kill s.ptable pid).1 = 0 ↔ ∃ i, s.Live i ∧ s.pid i = pid) ∧
    ¬ ∀ (events : List Event) (s : State), run step userinit events = some s →
      ∀ i, (s.ptable.proc i).state = .running → (s.ptable.proc i).killed = true →
        KilledSince s.history (s.pid i) := by
  constructor
  · intro always
    have hit := (always [] userinit rfl 0).mp (by decide +kernel)
    revert hit
    decide +kernel
  · intro always
    have ran : (run step userinit (.schedule 0 :: .kill 0 0 :: forkChild)).map
        (fun s => (s.ptable.proc 1 |>.state, s.ptable.proc 1 |>.killed, s.pid 1, s.history)) =
          some (.running, true, 2, [.fork 1 2, .born 2, .kill 0, .born 1]) := by decide +kernel
    obtain ⟨final, reached, facts⟩ := Option.map_eq_some_iff.mp ran
    simp only [Prod.mk.injEq] at facts
    obtain ⟨running, killed, pid, history⟩ := facts
    obtain ⟨later, earlier, split, member⟩ := always _ final reached 1 running killed
    have inside : .kill (final.pid 1) ∈ final.history := by
      rw [split]
      exact List.mem_append_left _ member
    rw [history, pid] at inside
    revert inside
    decide

end Xv6.Sched
