import Xv6.Sched.Tree

/- Parents and children: nobody has a parent that is gone, pids are not given out twice,
and a child is reaped once. -/
namespace Xv6.Sched

open Runs Process

variable {t t' : Tree} {event : Event} {root : Int}

/-- Parents are up, and whoever is up or a zombie has one. A fork makes a slot of its own. -/
structure Tree.Rooted (t : Tree) : Prop where
  init : (t.slot t.initproc).life = .up
  parent : ∀ i q, (t.slot i).parent = some q → (t.slot q).life = .up
  child : ∀ i, i ≠ t.initproc → (t.slot i).life = .up ∨ (t.slot i).life = .zombie →
    (t.slot i).parent ≠ none
  made : ∀ p np owned, t.makes p = some (np, owned) → (t.slot p).life = .up ∧
    (t.slot np).life = .embryo ∧ (owned = true → (t.slot np).parent = some p)
  apart : ∀ p q np b c, t.makes p = some (np, b) → t.makes q = some (np, c) → p = q

/-- A slot that is not up is nobody's parent. -/
theorem Tree.Rooted.childless (rooted : t.Rooted) {i : Fin NPROC}
    (down : (t.slot i).life ≠ .up) (j : Fin NPROC) : (t.slot j).parent ≠ some i :=
  fun mine => down (rooted.parent j i mine)

theorem Tree.Rooted.step (rooted : t.Rooted) (step : t.Step event t') : t'.Rooted := by
  obtain ⟨init, parent, child, made, apart⟩ := rooted
  cases step with
  | stay | full | fail | miss => exact ⟨init, parent, child, made, apart⟩
  | take p np up idle free =>
    constructor <;> simp only [Tree.put, Tree.make, Tree.log, Function.update_apply] <;> grind
  | drop p np event fails makes =>
    constructor <;> simp only [Tree.put, Tree.make, Function.update_apply] <;> grind
  | own p np makes =>
    constructor <;> simp only [Tree.put, Tree.make, Function.update_apply] <;> grind
  | start p np makes =>
    constructor <;> simp only [Tree.put, Tree.make, Tree.log, Function.update_apply] <;> grind
  | exit p other up idle =>
    -- Every child of `p` is init's now, and `p` makes none.
    constructor <;>
      simp only [Tree.put, Tree.log, Tree.adopt, orphan, Function.update_apply] <;> grind
  | reap p i up mine zombie =>
    constructor <;> simp only [Tree.put, Tree.log, Function.update_apply] <;> grind
  | hit p pid i same =>
    constructor <;> simp only [Tree.put, Tree.log, Function.update_apply] <;> grind

/-- The process an entry of the history is about; anything may be the argument of kill. -/
def Entry.subject : Entry → Int
  | .born pid | .fork _ pid | .exit pid | .wait _ pid => pid
  | .kill _ => 0

/-- Pids are given out in order and fit into an int, the next one as long as another
call of allocproc is within the bound. The pid of a failed fork stays in its slot. -/
structure Tree.Numbered (t : Tree) : Prop where
  positive : ∀ i, (t.slot i).life ≠ .unused → 0 < (t.slot i).pid
  nonneg : ∀ i, 0 ≤ (t.slot i).pid
  bound : ∀ i, (t.slot i).pid ≤ t.allocs + 1
  distinct : ∀ i j, (t.slot i).pid = (t.slot j).pid → (t.slot i).pid ≠ 0 → i = j
  fresh : t.allocs < 2 ^ 31 - 2 → 2 ≤ t.nextpid ∧ t.nextpid ≤ t.allocs + 2 ∧
    (∀ i, (t.slot i).pid < t.nextpid) ∧ ∀ entry ∈ t.history, entry.subject < t.nextpid

theorem nextPid_eq {pid : Int} (nonneg : 0 ≤ pid) (small : pid + 1 < 2 ^ 31) :
    nextPid pid = pid + 1 := by
  apply Int.bmod_eq_of_le <;> omega

theorem Tree.Step.allocs_le (step : t.Step event t') : t.allocs ≤ t'.allocs := by
  cases step <;> simp [Tree.put, Tree.make, Tree.log, Tree.adopt]

/-- The slots keep their pids or become empty, and each new entry is about one of them. -/
theorem Tree.Numbered.keep (numbered : t.Numbered) (pids : ∀ i, (t'.slot i).pid = (t.slot i).pid ∨
      (t'.slot i).pid = 0 ∧ (t'.slot i).life = .unused)
    (used : ∀ i, (t'.slot i).life ≠ .unused → (t.slot i).life ≠ .unused)
    (next : t'.nextpid = t.nextpid) (allocs : t'.allocs = t.allocs)
    (entries : ∀ entry ∈ t'.history, entry ∈ t.history ∨ entry.subject ≤ 0 ∨
      ∃ i, entry.subject = (t.slot i).pid) : t'.Numbered := by
  obtain ⟨positive, nonneg, bound, distinct, fresh⟩ := numbered
  refine ⟨fun i live => ?_, fun i => ?_, fun i => ?_, fun i j equal nonzero => ?_, fun within => ?_⟩
  · rcases pids i with same | ⟨-, empty⟩
    · rw [same]
      exact positive i (used i live)
    · exact (live empty).elim
  · have := nonneg i
    rcases pids i with same | ⟨zero, -⟩ <;> omega
  · have := bound i
    rcases pids i with same | ⟨zero, -⟩ <;> omega
  · rcases pids i with same | ⟨zero, -⟩
    · rcases pids j with same' | ⟨zero, -⟩
      · grind
      · omega
    · exact (nonzero zero).elim
  · rw [allocs] at within
    obtain ⟨least, most, below, older⟩ := fresh within
    rw [next, allocs]
    refine ⟨least, most, fun i => ?_, fun entry member => ?_⟩
    · have := below i
      rcases pids i with same | ⟨zero, -⟩ <;> omega
    · rcases entries entry member with old | small | ⟨i, subject⟩
      · exact older entry old
      · omega
      · rw [subject]
        exact below i

theorem Tree.Numbered.step (numbered : t.Numbered)
    (rooted : t.Rooted) (within : t'.allocs < 2 ^ 31 - 1) (step : t.Step event t') :
    t'.Numbered := by
  cases step with
  | stay => exact numbered
  | full p =>
    obtain ⟨positive, nonneg, bound, distinct, fresh⟩ := numbered
    refine ⟨positive, nonneg, fun i => ?_, distinct, fun small => ?_⟩
    · have := bound i
      push_cast
      omega
    · obtain ⟨least, most, below, older⟩ := fresh (by dsimp only at small; omega)
      exact ⟨least, by push_cast; omega, below, older⟩
  | take p np up idle free =>
    obtain ⟨positive, nonneg, bound, distinct, fresh⟩ := numbered
    have room : t.allocs + 1 < 2 ^ 31 - 1 := within
    obtain ⟨least, most, below, older⟩ := fresh (by omega)
    have pids : ∀ i, ((Function.update t.slot np
        { t.slot np with life := .embryo, pid := t.nextpid }) i).pid =
          if i = np then t.nextpid else (t.slot i).pid := by
      grind
    refine ⟨fun i live => ?_, fun i => ?_, fun i => ?_, fun i j same => ?_, fun small => ?_⟩
    all_goals simp only [Tree.put, Tree.make, Tree.log, pids] at *
    · grind
    · grind
    · have := bound i
      split <;> omega
    · have := below i
      have := below j
      split at same <;> split at same
      · simp_all
      · omega
      · omega
      · grind
    · rw [nextPid_eq (by omega) (by omega)]
      refine ⟨by omega, by omega, fun i => ?_, fun entry member => ?_⟩
      · have := below i
        split <;> omega
      · rcases List.mem_cons.mp member with rfl | old
        · simp only [Entry.subject]
          omega
        · have := older entry old
          omega
  | drop p np event fails makes =>
    apply numbered.keep <;> simp only [Tree.put, Tree.make, Function.update_apply] <;> grind
  | own p np makes =>
    apply numbered.keep <;> simp only [Tree.put, Tree.make, Function.update_apply] <;> grind
  | start p np makes =>
    have embryo := (rooted.made p np true makes).2.1
    apply numbered.keep <;> simp only [Tree.put, Tree.make, Tree.log, Function.update_apply] <;>
      grind [Entry.subject]
  | exit p other up idle =>
    apply numbered.keep <;>
      simp only [Tree.put, Tree.log, Tree.adopt, orphan, Function.update_apply] <;>
      grind [Entry.subject]
  | reap p i up mine zombie =>
    apply numbered.keep <;> simp only [Tree.put, Tree.log, Function.update_apply] <;>
      grind [Entry.subject]
  | fail p =>
    apply numbered.keep <;> simp only [Tree.log] <;> grind [Entry.subject]
  | hit p pid i same =>
    apply numbered.keep <;> simp only [Tree.put, Tree.log, Function.update_apply] <;>
      grind [Entry.subject]
  | miss p pid =>
    apply numbered.keep <;> simp only [Tree.log] <;> grind [Entry.subject]

/-- In a history, the latest entry first, no pid is forked twice and none is returned by
two calls of wait; the caller is the process that forked it, or init after that one exited. -/
def Orderly (root : Int) : List Entry → Prop
  | [] => True
  | .fork _ child :: earlier =>
    (0 < child ∧ ∀ other, .fork other child ∉ earlier) ∧ Orderly root earlier
  | .wait caller child :: earlier =>
    (child = -1 ∨ (∀ other, .wait other child ∉ earlier) ∧
      ∃ parent, .fork parent child ∈ earlier ∧
        (caller = parent ∨ caller = root ∧ .exit parent ∈ earlier)) ∧ Orderly root earlier
  | _ :: earlier => Orderly root earlier

theorem Orderly.append {later earlier : List Entry}
    (orderly : Orderly root (later ++ earlier)) : Orderly root earlier := by
  induction later with
  | nil => exact orderly
  | cons entry rest ih =>
    cases entry with
    | fork _ _ | wait _ _ => exact ih orderly.2
    | born _ | exit _ | kill _ => exact ih orderly

theorem Orderly.fork_unique {parent other child : Int} {history : List Entry}
    (orderly : Orderly root history) (forked : .fork parent child ∈ history)
    (again : .fork other child ∈ history) : parent = other ∧ 0 < child := by
  induction history with
  | nil => cases forked
  | cons entry earlier ih =>
    cases entry <;> simp only [Orderly] at orderly <;> grind

/-- Which slots the history speaks of: a slot in use was not reaped, and was forked by the
process its parent is, or by one that is gone and left it to init. -/
structure Tree.Recorded (t : Tree) : Prop where
  root : (t.slot t.initproc).pid = 1
  unforked : ∀ i, (t.slot i).life = .embryo → ∀ q, .fork q (t.slot i).pid ∉ t.history
  unreaped : ∀ i, (t.slot i).pid ≠ 0 → ∀ q, .wait q (t.slot i).pid ∉ t.history
  forked : ∀ i q, i ≠ t.initproc → (t.slot i).life = .up ∨ (t.slot i).life = .zombie →
    (t.slot i).parent = some q → ∃ parent, .fork parent (t.slot i).pid ∈ t.history ∧
      ((t.slot q).pid = parent ∨ q = t.initproc ∧ .exit parent ∈ t.history)
  orderly : Orderly 1 t.history

theorem Tree.Recorded.step (recorded : t.Recorded)
    (numbered : t.Numbered) (rooted : t.Rooted) (within : t'.allocs < 2 ^ 31 - 1)
    (step : t.Step event t') : t'.Recorded := by
  have childless := @rooted.childless
  obtain ⟨root, unforked, unreaped, forked, orderly⟩ := recorded
  cases step with
  | stay => exact ⟨root, unforked, unreaped, forked, orderly⟩
  | full p => exact ⟨root, unforked, unreaped, forked, orderly⟩
  | take p np up idle free =>
    have room : t.allocs + 1 < 2 ^ 31 - 1 := within
    obtain ⟨-, -, -, older⟩ := numbered.fresh (by omega)
    have fresh : ∀ q, .fork q t.nextpid ∉ t.history ∧ .wait q t.nextpid ∉ t.history := by
      intro q
      constructor <;> intro member <;> exact absurd (older _ member) (lt_irrefl _)
    have other : np ≠ t.initproc := by grind [Rooted.init]
    constructor <;> simp only [Tree.put, Tree.make, Tree.log, Function.update_apply,
      Orderly] <;> grind
  | drop p np event fails makes =>
    constructor <;> simp only [Tree.put, Tree.make, Function.update_apply] <;> grind
  | own p np makes =>
    obtain ⟨up, embryo, -⟩ := rooted.made p np false makes
    constructor <;> simp only [Tree.put, Tree.make, Function.update_apply] <;> grind
  | start p np makes =>
    obtain ⟨up, embryo, mine⟩ := rooted.made p np true makes
    have positive := numbered.positive np (by simp [embryo])
    have distinct := numbered.distinct
    constructor <;> simp only [Tree.put, Tree.make, Tree.log, Function.update_apply,
      Orderly] <;> grind
  | exit p other up idle =>
    constructor <;>
      simp only [Tree.put, Tree.log, Tree.adopt, orphan, Function.update_apply, Orderly] <;> grind
  | reap p i up mine zombie =>
    have positive := numbered.positive i (by simp [zombie])
    have distinct := numbered.distinct
    constructor <;> simp only [Tree.put, Tree.log, Function.update_apply, Orderly] <;> grind
      [rooted.init]
  | fail p =>
    have nonneg := numbered.nonneg
    constructor <;> simp only [Tree.log, Orderly] <;> grind
  | hit p pid i same =>
    constructor <;> simp only [Tree.put, Tree.log, Function.update_apply, Orderly] <;> grind
  | miss p pid =>
    constructor <;> simp only [Tree.log, Orderly] <;> grind

/-- A property that `userinit` has in every slot is checked in init's slot and in an empty one. -/
theorem userinit_slot (i : Fin NPROC) :
    userinit.tree.slot i = if i = 0 then ⟨.up, 1, none, false⟩ else ⟨.unused, 0, none, false⟩ := by
  simp only [State.tree, userinit, Function.update_apply]
  split <;> rfl

theorem rooted_userinit : userinit.tree.Rooted := by
  refine ⟨rfl, fun i q mine => ?_, fun i other live => ?_, fun p np owned makes => ?_,
    fun p q np b c makes => ?_⟩
  · grind [userinit_slot]
  · rw [userinit_slot, if_neg (by exact other)] at live
    simp at live
  · cases makes
  · cases makes

theorem numbered_userinit : userinit.tree.Numbered := by
  refine ⟨fun i live => ?_, fun i => ?_, fun i => ?_, fun i j same nonzero => ?_, fun _ => ?_⟩
  · grind [userinit_slot]
  · rw [userinit_slot]
    split <;> simp
  · rw [userinit_slot]
    split <;> simp [State.tree, userinit]
  · grind [userinit_slot]
  · refine ⟨by decide, by decide, fun i => ?_, by simp [State.tree, userinit, Entry.subject]⟩
    rw [userinit_slot]
    split <;> simp [State.tree, userinit]

theorem recorded_userinit : userinit.tree.Recorded := by
  refine ⟨rfl, fun _ _ _ => by simp [State.tree, userinit],
    fun _ _ _ => by simp [State.tree, userinit], fun i q other _ mine => ?_, trivial⟩
  grind [userinit_slot]

/-- What holds of the tree in every state the system reaches. -/
structure State.Sound (s : State) : Prop where
  rooted : s.tree.Rooted
  numbered : s.allocs < 2 ^ 31 - 1 → s.tree.Numbered
  recorded : s.allocs < 2 ^ 31 - 1 → s.tree.Recorded

theorem State.Sound.step {s s' : State} (sound : s.Sound)
    (taken : step s event = some s') : s'.Sound := by
  have moves := step_tree taken
  have fewer : s'.allocs < 2 ^ 31 - 1 → s.allocs < 2 ^ 31 - 1 := by
    have grows : s.allocs ≤ s'.allocs := moves.allocs_le
    omega
  refine ⟨sound.rooted.step moves, fun within => ?_, fun within => ?_⟩
  · exact (sound.numbered (fewer within)).step sound.rooted within moves
  · exact (sound.recorded (fewer within)).step (sound.numbered (fewer within)) sound.rooted
      within moves

theorem sound_of_run {events : List Event} {final : State}
    (reached : run step userinit events = some final) : final.Sound :=
  run_keeps (fun _ _ _ _ sound taken => sound.step taken) (fun _ _ => trivial) reached
    ⟨rooted_userinit, fun _ => numbered_userinit, fun _ => recorded_userinit⟩

/-- The entry is a call of wait that returned this pid. -/
def Entry.returns (child : Int) : Entry → Bool
  | .wait _ pid => pid == child
  | _ => false

theorem Orderly.reaped_once {child : Int} {history : List Entry}
    (orderly : Orderly root history) (positive : 0 < child) :
    history.countP (Entry.returns child) ≤ 1 := by
  induction history with
  | nil => simp
  | cons entry earlier ih =>
    cases entry with
    | wait caller pid =>
      by_cases same : pid = child
      · subst same
        rcases orderly.1 with failed | ⟨never, -⟩
        · omega
        · have none : earlier.countP (Entry.returns pid) = 0 := by
            rw [List.countP_eq_zero]
            intro entry member returns
            cases entry <;> simp only [Entry.returns, Bool.false_eq_true, beq_iff_eq] at returns
            subst returns
            exact never _ member
          simp [Entry.returns, none]
      · simpa [Entry.returns, same] using ih orderly.2
    | fork _ _ => simpa [Entry.returns] using ih orderly.2
    | born _ | exit _ | kill _ => simpa [Entry.returns] using ih orderly

/-- In every state reached from `userinit`, whoever is not init and up or a zombie has a
parent that is up, and no zombie is a parent. As long as pids have not wrapped, a pid that
fork returned is returned by at most one call of wait, made by the process that forked it,
or by init after that process exited. -/
theorem process_tree (events : List Event) (final : State)
    (reached : run step userinit events = some final) : (∀ i, i ≠ final.ptable.initproc →
      (final.ptable.proc i).state ∈ [.sleeping, .runnable, .running, .zombie] →
      ∃ q, (final.ptable.proc i).parent = some q ∧
        (final.ptable.proc q).state ∉ [.unused, .embryo, .zombie]) ∧
    (∀ i j, (final.ptable.proc i).state = .zombie → (final.ptable.proc j).parent ≠ some i) ∧
    (final.allocs < 2 ^ 31 - 1 → ∀ parent child, .fork parent child ∈ final.history →
      final.history.countP (Entry.returns child) ≤ 1 ∧
      ∀ later caller earlier, final.history = later ++ .wait caller child :: earlier →
        caller = parent ∨ caller = final.pid final.ptable.initproc ∧ .exit parent ∈ earlier) := by
  have sound := sound_of_run reached
  have up : ∀ q, (final.tree.slot q).life = .up →
      (final.ptable.proc q).state ∉ [.unused, .embryo, .zombie] := by
    intro q (alive : life (final.ptable.proc q).state = .up)
    cases state : (final.ptable.proc q).state <;> simp_all [life]
  refine ⟨fun i other live => ?_, fun i j zombie mine => ?_, fun within parent child forked => ?_⟩
  · have alive : (final.tree.slot i).life = .up ∨ (final.tree.slot i).life = .zombie := by
      simp only [State.tree, member]
      cases state : (final.ptable.proc i).state <;> simp_all [life]
    obtain ⟨q, mine⟩ := Option.ne_none_iff_exists'.mp (sound.rooted.child i other alive)
    exact ⟨q, mine, up q (sound.rooted.parent i q mine)⟩
  · have := up i (sound.rooted.parent j i mine)
    simp [zombie] at this
  · obtain ⟨root, -, -, -, orderly⟩ := sound.recorded within
    have positive := (orderly.fork_unique forked forked).2
    refine ⟨orderly.reaped_once positive, fun later caller earlier split => ?_⟩
    rw [show final.tree.history = final.history from rfl, split] at orderly
    rcases orderly.append.1 with failed | ⟨-, origin, known, callers⟩
    · omega
    · -- The fork the reaping call relies on is the only one of this pid.
      have same : origin = parent := by
        rw [split] at forked
        exact (orderly.fork_unique (List.mem_append_right _ (List.mem_cons_of_mem _ known))
          forked).1
      subst same
      rw [show final.pid final.ptable.initproc = 1 from root]
      exact callers

/-- init forks and waits, its child exits, and the second pass of wait finds it. -/
def family : List Event :=
  [.schedule 0, .allocproc 0, .stack 0 true, .copy 0 true, .start 0, .wait 0, .schedule 1, .exit 1,
    .schedule 0, .wait 0]

theorem process_tree_family : ∃ final, run step userinit family = some final ∧
    .wait 1 2 ∈ final.history ∧ final.history.countP (Entry.returns 2) ≤ 1 := by
  have ran : (run step userinit family).map State.history =
      some [.wait 1 2, .exit 2, .fork 1 2, .born 2, .born 1] := by decide +kernel
  have fewer : (run step userinit family).map State.allocs = some 1 := by decide +kernel
  obtain ⟨final, reached, history⟩ := Option.map_eq_some_iff.mp ran
  rw [reached, Option.map_some, Option.some.injEq] at fewer
  refine ⟨final, reached, by simp [history], ?_⟩
  exact ((process_tree family final reached).2.2 (by omega) 1 2 (by simp [history])).1

end Xv6.Sched
