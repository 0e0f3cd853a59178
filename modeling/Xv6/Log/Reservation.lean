import Mathlib.Algebra.BigOperators.Group.Finset.Basic
import Mathlib.Algebra.Order.BigOperators.Group.Finset
import Mathlib.Data.Finset.Card
import Xv6.Lib.Runs
import Xv6.Log.Ops

/- How much of the log the admitted operations can fill. -/
namespace Xv6.Log

open Runs

variable {event : OpEvent} {blockno : Nat} {s' : LogState} {start : Nat} {events : List OpEvent}

/-- Told from the events alone: the operations between `begin_op` and `end_op`, the
distinct blocks each has log_written there, and those of the running transaction. -/
structure Trace where
  active : Finset Nat
  used : Nat → Finset Nat
  logged : Finset Nat

def Trace.empty : Trace := ⟨∅, fun _ => ∅, ∅⟩

/-- `s` and `s'` are the log before and after the event. -/
def Trace.step (t : Trace) (s s' : LogState) : OpEvent → Trace
  | .beginOp p =>
    if s'.ops p = .active then
      { t with active := insert p t.active, used := Function.update t.used p ∅ }
    else t
  | .logWrite _ _ => t
  | .absorb p =>
    match s.ops p with
    | .logging blockno =>
      { t with
        used := Function.update t.used p (insert blockno (t.used p))
        logged := insert blockno t.logged }
    | _ => t
  | .endOp p => { t with active := t.active.erase p }
  | .commit _ => { t with logged := ∅ }
  | .finish _ => t

def opTrack (state : LogState × Trace) (event : OpEvent) : Option (LogState × Trace) :=
  (opStep state.1 event).toOption.map fun next => (next, state.2.step state.1 next event)

/-- The operation log_writes at most `budget` distinct blocks, this one included. -/
def WithinBudget (budget : Nat) (state : LogState × Trace) : OpEvent → Prop
  | .logWrite p blockno => (insert blockno (state.2.used p)).card ≤ budget
  | _ => True

instance (budget : Nat) (state : LogState × Trace) (event : OpEvent) :
    Decidable (WithinBudget budget state event) :=
  match event with
  | .logWrite _ _ => Nat.decLe _ _
  | .beginOp _ | .absorb _ | .endOp _ | .commit _ | .finish _ => isTrue trivial

theorem WithinBudget.mono {small large : Nat} (le : small ≤ large) {state : LogState × Trace}
    (within : WithinBudget small state event) : WithinBudget large state event := by
  cases event with
  | logWrite p blockno => exact Nat.le_trans within le
  | beginOp p | absorb p | endOp p | commit p | finish p => trivial

/-- The event is neither a panic of `log_write` nor a write past the log area. -/
def Sound (s : LogState) : OpEvent → Prop
  | .logWrite p blockno => logWriteCheck s p blockno ≠ .panic "too big a transaction"
  | .commit p => s.ops p = .committer → ∀ block ∈ commitLogBlocks s, block < s.start + s.size
  | _ => True

/-- The transaction has room: fewer than LOGSIZE - 1 distinct blocks when an operation
calls `log_write`, at most that many when it commits. -/
def HasRoom (state : LogState × Trace) : OpEvent → Prop
  | .logWrite p _ => state.1.ops p = .active → state.2.logged.card < LOGSIZE - 1
  | .commit p => state.1.ops p = .committer → state.2.logged.card ≤ LOGSIZE - 1
  | _ => True

/-- The reservation is enough for operations of at most `budget` distinct blocks. -/
def Reserves (budget : Nat) : Prop :=
  ∀ start events state event, run opTrack (initlog start, Trace.empty) events = some state →
    Meets opTrack (WithinBudget budget) (initlog start, Trace.empty) events →
    WithinBudget budget state event → Sound state.1 event

/-- The log's counters are the trace's sets. -/
structure Linked (s : LogState) (t : Trace) : Prop where
  distinct : s.lh.blocks.Nodup
  listed : ∀ b, b ∈ s.lh.blocks ↔ b ∈ t.logged
  inOp : ∀ p, (s.ops p).inOp = true ↔ p ∈ t.active
  count : s.outstanding = t.active.card
  used : ∀ p ∈ t.active, t.used p ⊆ t.logged

/-- A commit has the log to itself, and leaves it empty. -/
structure Exclusive (s : LogState) (t : Trace) : Prop where
  alone : s.committing = true → t.active = ∅
  inCommit : ∀ p, (s.ops p).inCommit = true → s.committing = true
  single : ∀ p q, (s.ops p).inCommit = true → (s.ops q).inCommit = true → p = q
  done : ∀ p, s.ops p = .committed → t.logged = ∅
  between : s.committing = false → t.active = ∅ → t.logged = ∅

theorem Linked.n_eq {s : LogState} {t : Trace} (linked : Linked s t) : s.lh.n = t.logged.card := by
  have same : s.lh.blocks.toFinset = t.logged := by
    ext b
    rw [List.mem_toFinset, linked.listed]
  rw [← same, List.toFinset_card_of_nodup linked.distinct, length_blocks]

theorem Linked.initlog (start : Nat) : Linked (initlog start) Trace.empty where
  distinct := by simp [Log.initlog, Logheader.blocks]
  listed := by simp [Log.initlog, Logheader.blocks, Trace.empty]
  inOp := by simp [Log.initlog, Op.inOp, Trace.empty]
  count := by simp [Log.initlog, Trace.empty]
  used := by simp [Trace.empty]

theorem Exclusive.initlog (start : Nat) : Exclusive (initlog start) Trace.empty where
  alone := by simp [Trace.empty]
  inCommit := by simp [Log.initlog, Op.inCommit]
  single := by simp [Log.initlog, Op.inCommit]
  done := by simp [Trace.empty]
  between := by simp [Trace.empty]

section Moves

variable {s : LogState} {t : Trace} {p : Nat} {op : Op}

/-- An operation that stays inside, or stays outside, its begin_op and end_op. -/
theorem Linked.setOp (linked : Linked s t) (same : op.inOp = (s.ops p).inOp) :
    Linked (s.setOp p op) t := by
  refine ⟨linked.distinct, linked.listed, fun q => ?_, linked.count, linked.used⟩
  grind [setOp_ops, inOp]

theorem Linked.wakeup (linked : Linked s t) : Linked s.wakeup t :=
  ⟨linked.distinct, linked.listed, fun q => by rw [wakeup_inOp]; exact linked.inOp q,
    linked.count, linked.used⟩

/-- An operation that does not enter the commit code. -/
theorem Exclusive.setOp (exclusive : Exclusive s t) (idle : op.inCommit = false) :
    Exclusive (s.setOp p op) t := by
  have old : ∀ q, ((s.setOp p op).ops q).inCommit = true → (s.ops q).inCommit = true := by
    grind [setOp_ops]
  refine ⟨exclusive.alone, fun q committing => exclusive.inCommit q (old q committing),
    fun q r first second => exclusive.single q r (old q first) (old r second),
    fun q committed => ?_, exclusive.between⟩
  rw [setOp_ops] at committed
  split at committed
  · rw [committed] at idle
    cases idle
  · exact exclusive.done q committed

theorem Exclusive.wakeup (exclusive : Exclusive s t) : Exclusive s.wakeup t := by
  refine ⟨exclusive.alone, fun q committing => ?_, fun q r first second => ?_,
    fun q committed => ?_, exclusive.between⟩
  · rw [wakeup_inCommit] at committing
    exact exclusive.inCommit q committing
  · grind [wakeup_inCommit, single]
  · exact exclusive.done q (wakeup_ops_eq s q (by decide) committed)

/-- Nobody is in an operation while a commit runs. -/
theorem Exclusive.not_committing (linked : Linked s t) (exclusive : Exclusive s t)
    (inside : (s.ops p).inOp = true) : s.committing = false := by
  have member := (linked.inOp p).mp inside
  cases committing : s.committing with
  | false => rfl
  | true =>
    grind [alone]

theorem Linked.enroll (linked : Linked s t) (before : (s.ops p).inOp = false) :
    Linked ({ s with outstanding := s.outstanding + 1 }.setOp p .active)
      { t with active := insert p t.active, used := Function.update t.used p ∅ } := by
  have fresh : p ∉ t.active := by
    rw [← linked.inOp, before]
    decide
  refine ⟨linked.distinct, linked.listed, fun q => ?_, ?_, fun q member => ?_⟩
  · rw [setOp_ops, Finset.mem_insert]
    split
    · rename_i here
      simp [here, Op.inOp]
    · rename_i apart
      simp only [apart, false_or]
      exact linked.inOp q
  · rw [Finset.card_insert_of_notMem fresh]
    have count := linked.count
    change s.outstanding + 1 = _
    omega
  · grind [Function.update_of_ne, used]

theorem Linked.absorb (linked : Linked s t) (standing : s.ops p = .logging blockno) :
    Linked ({ s with lh := s.lh.absorb blockno }.setOp p .active)
      { t with
        used := Function.update t.used p (insert blockno (t.used p))
        logged := insert blockno t.logged } := by
  refine ⟨nodup_absorb linked.distinct, fun b => ?_, fun q => ?_, linked.count, fun q member => ?_⟩
  · rw [Finset.mem_insert, ← linked.listed]
    change b ∈ (s.lh.absorb blockno).blocks ↔ _
    rw [mem_blocks_absorb, or_comm]
  · rw [setOp_ops]
    split
    · rename_i here
      rw [← linked.inOp, here, standing]
      rfl
    · exact linked.inOp q
  · by_cases here : q = p
    · grind [Function.update_self, Finset.insert_subset_insert, used]
    · grind [Function.update_of_ne, used, LE.le.trans, Finset.subset_insert]

theorem Linked.leave (linked : Linked s t) (inside : (s.ops p).inOp = true)
    (outside : op.inOp = false) : Linked ({ s with outstanding := s.outstanding - 1 }.setOp p op)
      { t with active := t.active.erase p } := by
  have member := (linked.inOp p).mp inside
  refine ⟨linked.distinct, linked.listed, fun q => ?_, ?_, fun q stays => ?_⟩
  · grind [setOp_ops, not_false_eq_true, inOp]
  · have positive : 0 < t.active.card := Finset.card_pos.mpr ⟨p, member⟩
    have count := linked.count
    rw [Finset.card_erase_of_mem member]
    change s.outstanding - 1 = _
    omega
  · exact linked.used q (Finset.mem_of_mem_erase stays)

theorem Linked.committed (linked : Linked s t) (exclusive : Exclusive s t)
    (standing : s.ops p = .committer) {lh : Logheader} (erased : lh.n = 0) :
    Linked ({ s with lh := lh }.setOp p .committed) { t with logged := ∅ } ∧
      Exclusive ({ s with lh := lh }.setOp p .committed) { t with logged := ∅ } := by
  have inside : (s.ops p).inCommit = true := by rw [standing]; rfl
  have committing := exclusive.inCommit p inside
  have nobody := exclusive.alone committing
  have empty : lh.blocks = [] := by simp [Logheader.blocks, erased]
  have old : ∀ q, (({ s with lh := lh }.setOp p .committed).ops q).inCommit = true →
      (s.ops q).inCommit = true := by
    grind [setOp_ops]
  refine ⟨⟨?_, ?_, fun q => ?_, linked.count, fun q member => ?_⟩,
    ⟨exclusive.alone, fun q _ => committing,
      fun q r first second => exclusive.single q r (old q first) (old r second),
      fun _ _ => rfl, fun _ _ => rfl⟩⟩
  · change lh.blocks.Nodup
    rw [empty]
    exact List.nodup_nil
  · intro b
    change b ∈ lh.blocks ↔ _
    simp [empty]
  · rw [setOp_ops]
    split
    · rename_i here
      rw [← linked.inOp, here, standing]
      rfl
    · exact linked.inOp q
  · rw [nobody] at member
    cases member

theorem Exclusive.finish (exclusive : Exclusive s t) (standing : s.ops p = .committed) :
    Exclusive ({ s with committing := false }.wakeup.setOp p .outside) t := by
  have inside : (s.ops p).inCommit = true := by rw [standing]; rfl
  have nobody : ∀ q, (({ s with committing := false }.wakeup.setOp p .outside).ops q).inCommit
      = false := by
    intro q
    rw [setOp_ops]
    split
    · rfl
    · rename_i apart
      by_contra still
      exact apart (exclusive.single q p (by simpa using still) inside)
  refine ⟨fun impossible => Bool.noConfusion impossible, fun q committing => ?_,
    fun q r first _ => ?_, fun q committed => ?_, fun _ _ => exclusive.done p standing⟩
  · rw [nobody] at committing
    cases committing
  · rw [nobody] at first
    cases first
  · have idle := nobody q
    rw [committed] at idle
    cases idle

theorem Exclusive.enter (linked : Linked s t) (exclusive : Exclusive s t)
    (inside : (s.ops p).inOp = true) (last : s.outstanding = 1) :
    Exclusive ({ s with outstanding := s.outstanding - 1, committing := true }.setOp p .committer)
      { t with active := t.active.erase p } := by
  have quiet := exclusive.not_committing linked inside
  have nobody : ∀ q, (s.ops q).inCommit = true → False := by
    intro q committing
    have impossible := exclusive.inCommit q committing
    rw [quiet] at impossible
    cases impossible
  have member := (linked.inOp p).mp inside
  have one : t.active.card = 1 := by
    have count := linked.count
    omega
  refine ⟨fun _ => ?_, fun _ _ => rfl, fun q r first second => ?_, fun q committed => ?_,
    fun impossible => Bool.noConfusion impossible⟩
  · rw [← Finset.card_eq_zero, Finset.card_erase_of_mem member, one]
  · grind [setOp_ops]
  · rw [setOp_ops] at committed
    split at committed
    · cases committed
    · exact (nobody q (by rw [committed]; rfl)).elim

theorem Exclusive.leave (linked : Linked s t) (exclusive : Exclusive s t)
    (inside : (s.ops p).inOp = true) (more : s.outstanding ≠ 1) :
    Exclusive ({ s with outstanding := s.outstanding - 1 }.wakeup.setOp p .outside)
      { t with active := t.active.erase p } := by
  have quiet := exclusive.not_committing linked inside
  have member := (linked.inOp p).mp inside
  have others : t.active.erase p ≠ ∅ := by
    intro none
    have zero := Finset.card_eq_zero.mpr none
    rw [Finset.card_erase_of_mem member] at zero
    have positive : 0 < t.active.card := Finset.card_pos.mpr ⟨p, member⟩
    have count := linked.count
    omega
  have moved : Exclusive (s.wakeup.setOp p .outside) t := exclusive.wakeup.setOp rfl
  refine ⟨fun committing => ?_, moved.inCommit, moved.single, moved.done,
    fun _ none => (others none).elim⟩
  rw [quiet] at committing
  cases committing

theorem Exclusive.enroll (exclusive : Exclusive s t) (quiet : s.committing = false) :
    Exclusive ({ s with outstanding := s.outstanding + 1 }.setOp p .active)
      { t with active := insert p t.active, used := Function.update t.used p ∅ } := by
  have moved : Exclusive (s.setOp p .active) t := exclusive.setOp rfl
  refine ⟨fun committing => ?_, moved.inCommit, moved.single, moved.done, fun _ none => ?_⟩
  · rw [quiet] at committing
    cases committing
  · exact (Finset.insert_ne_empty p t.active none).elim

theorem Exclusive.absorb (linked : Linked s t) (exclusive : Exclusive s t)
    (standing : s.ops p = .logging blockno) :
    Exclusive ({ s with lh := s.lh.absorb blockno }.setOp p .active)
      { t with
        used := Function.update t.used p (insert blockno (t.used p))
        logged := insert blockno t.logged } := by
  have inside : (s.ops p).inOp = true := by rw [standing]; rfl
  have quiet := exclusive.not_committing linked inside
  have member := (linked.inOp p).mp inside
  have moved : Exclusive (s.setOp p .active) t := exclusive.setOp rfl
  refine ⟨exclusive.alone, moved.inCommit, moved.single, fun q committed => ?_, fun _ none => ?_⟩
  · -- A committed operation would mean a commit is running.
    have impossible := moved.inCommit q (by
      change (s.setOp p .active).ops q = .committed at committed
      rw [committed]
      rfl)
    change s.committing = true at impossible
    rw [quiet] at impossible
    cases impossible
  · rw [none] at member
    cases member

end Moves

/-- Every step keeps the log and its trace together. -/
theorem linked_step {s : LogState} {t : Trace} (linked : Linked s t)
    (exclusive : Exclusive s t) (taken : opStep s event = .ok s') :
    Linked s' (t.step s s' event) ∧ Exclusive s' (t.step s s' event) := by
  cases event with
  | beginOp p =>
    obtain ⟨standing, asleep | ⟨quiet, -, admitted⟩⟩ := beginOp_ok taken
    · have before : (s.ops p).inOp = false := by
        rcases standing with out | out <;> rw [out] <;> rfl
      have idle : (s.setOp p .sleeping).ops p ≠ .active := by simp [setOp_ops]
      subst asleep
      simp only [Trace.step, idle, ↓reduceIte]
      exact ⟨linked.setOp before.symm, exclusive.setOp rfl⟩
    · have before : (s.ops p).inOp = false := by
        rcases standing with out | out <;> rw [out] <;> rfl
      grind [Trace.step, setOp_ops, Linked.enroll, Exclusive.enroll]
  | logWrite p blockno =>
    obtain ⟨standing, rfl⟩ := logWriteCheck_ok taken
    exact ⟨linked.setOp (by rw [standing]; rfl), exclusive.setOp rfl⟩
  | absorb p =>
    obtain ⟨blockno, standing, rfl⟩ := logWriteAbsorb_ok taken
    grind [Trace.step, Linked.absorb, Exclusive.absorb]
  | endOp p =>
    obtain ⟨standing, -, ⟨last, rfl⟩ | ⟨more, rfl⟩⟩ := endOp_ok taken
    · have inside : (s.ops p).inOp = true := by rw [standing]; rfl
      have left := linked.leave inside (show Op.committer.inOp = false from rfl)
      exact ⟨⟨left.distinct, left.listed, left.inOp, left.count, left.used⟩,
        exclusive.enter linked inside last⟩
    · have inside : (s.ops p).inOp = true := by rw [standing]; rfl
      have woken : (s.wakeup.ops p).inOp = true := by rw [wakeup_inOp]; exact inside
      exact ⟨linked.wakeup.leave woken rfl, exclusive.leave linked inside more⟩
  | commit p =>
    obtain ⟨standing, lh, erased, rfl⟩ := commit_ok taken
    exact linked.committed exclusive standing erased
  | finish p =>
    obtain ⟨standing, rfl⟩ := finish_ok taken
    have outside : (s.wakeup.ops p).inOp = false := by
      rw [wakeup_inOp, standing]
      rfl
    have moved : Linked (s.wakeup.setOp p .outside) t := linked.wakeup.setOp outside.symm
    exact ⟨⟨moved.distinct, moved.listed, moved.inOp, moved.count, moved.used⟩,
      exclusive.finish standing⟩

/-- Every step keeps the log where `initlog` put it. -/
theorem opStep_geometry {s : LogState} (taken : opStep s event = .ok s') :
    s'.start = s.start ∧ s'.size = s.size := by
  cases event with
  | beginOp p =>
    obtain ⟨-, rfl | ⟨-, -, rfl⟩⟩ := beginOp_ok taken <;> exact ⟨rfl, rfl⟩
  | logWrite p blockno =>
    obtain ⟨-, rfl⟩ := logWriteCheck_ok taken
    exact ⟨rfl, rfl⟩
  | absorb p =>
    obtain ⟨_, -, rfl⟩ := logWriteAbsorb_ok taken
    exact ⟨rfl, rfl⟩
  | endOp p =>
    obtain ⟨-, -, ⟨-, rfl⟩ | ⟨-, rfl⟩⟩ := endOp_ok taken <;> exact ⟨rfl, rfl⟩
  | commit p =>
    obtain ⟨-, _, -, rfl⟩ := commit_ok taken
    exact ⟨rfl, rfl⟩
  | finish p =>
    obtain ⟨-, rfl⟩ := finish_ok taken
    exact ⟨rfl, rfl⟩

/-- What holds of a log and its trace whatever the operations write. -/
structure Reached (state : LogState × Trace) : Prop where
  size : state.1.size = LOGSIZE
  linked : Linked state.1 state.2
  exclusive : Exclusive state.1 state.2

theorem opTrack_eq_some {state next : LogState × Trace} : opTrack state event = some next ↔
      opStep state.1 event = .ok next.1 ∧ next.2 = state.2.step state.1 next.1 event := by
  simp only [opTrack, Option.map_eq_some_iff, Outcome.toOption_eq_some]
  constructor
  · grind
  · grind

theorem Reached.step {state next : LogState × Trace} (reached : Reached state)
    (taken : opTrack state event = some next) : Reached next := by
  obtain ⟨taken, traced⟩ := opTrack_eq_some.mp taken
  obtain ⟨linked, exclusive⟩ := linked_step reached.linked reached.exclusive taken
  rw [← traced] at linked exclusive
  exact ⟨(opStep_geometry taken).2.trans reached.size, linked, exclusive⟩

theorem Reached.run {state : LogState × Trace}
    (reached : run opTrack (initlog start, Trace.empty) events = some state) : Reached state :=
  run_keeps (fun _ _ _ _ before taken => Reached.step before taken)
    (fun _ _ => trivial) reached ⟨rfl, Linked.initlog start, Exclusive.initlog start⟩

/-- `log_write` and `commit` stay inside the log area exactly when the distinct blocks of
the transaction leave room. -/
theorem Reached.sound_iff {state : LogState × Trace} (reached : Reached state) (event : OpEvent) :
    Sound state.1 event ↔ HasRoom state event := by
  have count := reached.linked.n_eq
  have size := reached.size
  cases event with
  | logWrite p blockno =>
    have positive : state.1.ops p = .active → ¬ state.1.outstanding < 1 := by
      intro standing
      have member := (reached.linked.inOp p).mp (by rw [standing]; rfl)
      have someone : 0 < state.2.active.card := Finset.card_pos.mpr ⟨p, member⟩
      have outstanding := reached.linked.count
      omega
    simp only [Sound, HasRoom, logWriteCheck]
    grind
  | commit p =>
    simp only [Sound, HasRoom, commitLogBlocks]
    refine forall_congr' fun _ => ?_
    split
    · constructor
      · intro bounded
        have last := bounded (state.1.start + (state.1.lh.n - 1) + 1) (by
          refine List.mem_cons_of_mem _ (List.mem_map.mpr ⟨state.1.lh.n - 1, ?_, rfl⟩)
          rw [List.mem_range]
          omega)
        omega
      · intro room block member
        rcases List.mem_cons.mp member with rfl | member
        · omega
        · obtain ⟨tail, inside, rfl⟩ := List.mem_map.mp member
          rw [List.mem_range] at inside
          omega
    · grind
  | beginOp p | absorb p | endOp p | finish p => exact Iff.rfl

/-- What the admitted operations may still add to the transaction fits. -/
structure Budgeted (budget : Nat) (state : LogState × Trace) : Prop where
  room : state.2.logged.card + ∑ p ∈ state.2.active, (budget - (state.2.used p).card)
    ≤ MAXOPBLOCKS + 2 * budget
  pending : ∀ p blockno, state.1.ops p = .logging blockno →
    (insert blockno (state.2.used p)).card ≤ budget

theorem Budgeted.initlog (budget start : Nat) : Budgeted budget (initlog start, Trace.empty) where
  room := by simp [Trace.empty]
  pending := by simp [Log.initlog]

section Budget

variable {budget : Nat} {s : LogState} {t : Trace} {p : Nat}

theorem Budgeted.setOp {op : Op} (budgeted : Budgeted budget (s, t))
    (allowed : ∀ blockno, op = .logging blockno → (insert blockno (t.used p)).card ≤ budget) :
    Budgeted budget (s.setOp p op, t) := by
  refine ⟨budgeted.room, fun q blockno standing => ?_⟩
  rw [setOp_ops] at standing
  split at standing
  · grind
  · exact budgeted.pending q blockno standing

theorem Budgeted.wakeup (budgeted : Budgeted budget (s, t)) : Budgeted budget (s.wakeup, t) :=
  ⟨budgeted.room, fun q blockno standing =>
    budgeted.pending q blockno (wakeup_ops_eq s q Op.noConfusion standing)⟩

/-- The reservation of `begin_op` counts MAXOPBLOCKS for each operation inside. Two or
more operations leave each other the difference to their budget; one alone starts with
an empty log. -/
theorem Budgeted.enroll (within : budget ≤ MAXOPBLOCKS) (linked : Linked s t)
    (exclusive : Exclusive s t) (budgeted : Budgeted budget (s, t))
    (before : (s.ops p).inOp = false) (quiet : s.committing = false)
    (fits : (s.lh.n : Int) + (s.outstanding + 1) * MAXOPBLOCKS ≤ LOGSIZE) :
    Budgeted budget ({ s with outstanding := s.outstanding + 1 }.setOp p .active,
      { t with active := insert p t.active, used := Function.update t.used p ∅ }) := by
  have fresh : p ∉ t.active := by
    rw [← linked.inOp, before]
    decide
  have elsewhere : ∀ q ∈ t.active, Function.update t.used p ∅ q = t.used q := by
    intro q member
    refine Function.update_of_ne ?_ _ _
    rintro rfl
    exact fresh member
  refine ⟨?_, fun q blockno standing => ?_⟩
  · dsimp only
    rw [Finset.sum_insert fresh, Function.update_self, Finset.card_empty, Nat.sub_zero,
      Finset.sum_congr rfl fun q member => by rw [elsewhere q member]]
    have count := linked.count
    have listed := linked.n_eq
    simp only [MAXOPBLOCKS, LOGSIZE] at within fits ⊢
    rcases Nat.eq_zero_or_pos t.active.card with none | someone
    · have nobody := Finset.card_eq_zero.mp none
      rw [nobody, exclusive.between quiet nobody, Finset.sum_empty, Finset.card_empty]
      omega
    · have each : ∑ q ∈ t.active, (budget - (t.used q).card) ≤ t.active.card * budget :=
        Finset.sum_le_card_nsmul _ _ _ fun q _ => Nat.sub_le _ _
      have two : t.active.card = 1 ∨ t.active.card = 2 := by omega
      rcases two with one | two
      · rw [one] at each count
        omega
      · rw [two] at each count
        omega
  · dsimp only at standing ⊢
    rw [setOp_ops] at standing
    split at standing
    · cases standing
    · rename_i apart
      rw [Function.update_of_ne apart]
      exact budgeted.pending q blockno standing

/-- A block new to the transaction is new to the operation, and paid for by it. -/
theorem Budgeted.absorb (linked : Linked s t) (budgeted : Budgeted budget (s, t))
    (standing : s.ops p = .logging blockno) :
    Budgeted budget ({ s with lh := s.lh.absorb blockno }.setOp p .active,
      { t with
        used := Function.update t.used p (insert blockno (t.used p))
        logged := insert blockno t.logged }) := by
  have member := (linked.inOp p).mp (by rw [standing]; rfl)
  have rest : ∑ q ∈ t.active.erase p,
      (budget - (Function.update t.used p (insert blockno (t.used p)) q).card) =
      ∑ q ∈ t.active.erase p, (budget - (t.used q).card) := by
    refine Finset.sum_congr rfl fun q inside => ?_
    rw [Function.update_of_ne (Finset.ne_of_mem_erase inside)]
  refine ⟨?_, fun q other pending => ?_⟩
  · have room := budgeted.room
    have paid := budgeted.pending p blockno standing
    dsimp only at room paid ⊢
    rw [← Finset.add_sum_erase _ _ member] at room ⊢
    rw [rest, Function.update_self]
    by_cases old : blockno ∈ t.logged
    · rw [Finset.insert_eq_of_mem old]
      have grows : (t.used p).card ≤ (insert blockno (t.used p)).card :=
        Finset.card_le_card (Finset.subset_insert _ _)
      omega
    · have new : blockno ∉ t.used p := fun inside => old (linked.used p member inside)
      grind
  · dsimp only at pending ⊢
    rw [setOp_ops] at pending
    split at pending
    · cases pending
    · rename_i apart
      rw [Function.update_of_ne apart]
      exact budgeted.pending q other pending

theorem Budgeted.leave (budgeted : Budgeted budget (s, t)) (p : Nat) :
    Budgeted budget (s, { t with active := t.active.erase p }) := by
  refine ⟨?_, budgeted.pending⟩
  have fewer : ∑ q ∈ t.active.erase p, (budget - (t.used q).card) ≤
      ∑ q ∈ t.active, (budget - (t.used q).card) :=
    Finset.sum_le_sum_of_subset (Finset.erase_subset _ _)
  have room := budgeted.room
  dsimp only at room ⊢
  omega

end Budget

theorem Budgeted.step {budget : Nat} (within : budget ≤ MAXOPBLOCKS)
    {state next : LogState × Trace} (reached : Reached state)
    (budgeted : Budgeted budget state) (allowed : WithinBudget budget state event)
    (taken : opTrack state event = some next) : Budgeted budget next := by
  obtain ⟨s, t⟩ := state
  obtain ⟨s', t'⟩ := next
  obtain ⟨stepped, traced⟩ := opTrack_eq_some.mp taken
  dsimp only at stepped traced
  subst traced
  cases event with
  | beginOp p =>
    obtain ⟨standing, rfl | ⟨quiet, fits, rfl⟩⟩ := beginOp_ok stepped
    · simp [Trace.step, setOp_ops, setOp, budgeted]
    · simp only [Trace.step, setOp_ops, ↓reduceIte]
      refine Budgeted.enroll within reached.linked reached.exclusive budgeted ?_ quiet fits
      rcases standing with out | out <;> rw [out] <;> rfl
  | logWrite p blockno =>
    obtain ⟨-, rfl⟩ := logWriteCheck_ok stepped
    refine budgeted.setOp fun other same => ?_
    cases same
    exact allowed
  | absorb p =>
    obtain ⟨blockno, standing, rfl⟩ := logWriteAbsorb_ok stepped
    simp only [Trace.step, standing]
    exact budgeted.absorb reached.linked standing
  | endOp p =>
    obtain ⟨-, -, ⟨-, rfl⟩ | ⟨-, rfl⟩⟩ := endOp_ok stepped
    · have moved : Budgeted budget (s.setOp p .committer, t) := budgeted.setOp fun _ =>
        Op.noConfusion
      exact ⟨(moved.leave p).room, (moved.leave p).pending⟩
    · have moved : Budgeted budget (s.wakeup.setOp p .outside, t) :=
        budgeted.wakeup.setOp fun _ => Op.noConfusion
      exact ⟨(moved.leave p).room, (moved.leave p).pending⟩
  | commit p =>
    obtain ⟨-, lh, -, rfl⟩ := commit_ok stepped
    have moved : Budgeted budget (s.setOp p .committed, t) := budgeted.setOp fun _ => Op.noConfusion
    refine ⟨?_, moved.pending⟩
    have room := budgeted.room
    dsimp only [Trace.step] at room ⊢
    rw [Finset.card_empty]
    omega
  | finish p =>
    obtain ⟨-, rfl⟩ := finish_ok stepped
    have moved : Budgeted budget (s.wakeup.setOp p .outside, t) :=
      budgeted.wakeup.setOp fun _ => Op.noConfusion
    exact ⟨moved.room, moved.pending⟩

theorem Budgeted.run {budget : Nat} (within : budget ≤ MAXOPBLOCKS) {state : LogState × Trace}
    (reached : run opTrack (Log.initlog start, Trace.empty) events = some state)
    (meets : Meets opTrack (WithinBudget budget) (Log.initlog start, Trace.empty) events) :
    Reached state ∧ Budgeted budget state :=
  run_preserves
    (fun _ _ _ allowed (before : Reached _ ∧ Budgeted budget _) taken =>
      ⟨before.1.step taken, before.2.step within before.1 allowed taken⟩)
    meets reached
    ⟨⟨rfl, Linked.initlog start, Exclusive.initlog start⟩, Budgeted.initlog budget start⟩

/-- One block less than MAXOPBLOCKS each, and the log never fills up. -/
theorem reserves_of_lt {budget : Nat} (smaller : budget < MAXOPBLOCKS) : Reserves budget := by
  intro start events state event reached meets _
  obtain ⟨inside, budgeted⟩ := Budgeted.run (Nat.le_of_lt smaller) reached meets
  have room := budgeted.room
  simp only [MAXOPBLOCKS] at room smaller
  rw [inside.sound_iff]
  cases event with
  | logWrite p blockno =>
    intro _
    simp only [LOGSIZE, MAXOPBLOCKS]
    omega
  | commit p =>
    intro _
    simp only [LOGSIZE, MAXOPBLOCKS]
    omega
  | beginOp p | absorb p | endOp p | finish p => trivial

/-- The operation's log_writes, one after another. -/
def writes (p : Nat) (blocks : List Nat) : List OpEvent :=
  blocks.flatMap fun blockno => [.logWrite p blockno, .absorb p]

/-- Three operations are admitted to the empty log and write 10, 10 and 9 blocks. -/
def crowd : List OpEvent :=
  [.beginOp 0, .beginOp 1, .beginOp 2] ++ writes 0 (List.range 10) ++
    writes 1 ((List.range 10).map (· + 10)) ++ writes 2 ((List.range 9).map (· + 20))

theorem crowd_fills : (run opTrack (initlog 2, Trace.empty) crowd).map (fun state =>
    (state.1.ops 2, state.2.logged.card, (insert 29 (state.2.used 2)).card))
      = some (.active, LOGSIZE - 1, MAXOPBLOCKS) := by
  decide +kernel

/-- The thirtieth block is the tenth of its operation, and `log_write` panics. -/
theorem not_reserves_of_le {budget : Nat} (large : MAXOPBLOCKS ≤ budget) : ¬ Reserves budget := by
  intro sound
  have meets : Meets opTrack (WithinBudget MAXOPBLOCKS) (initlog 2, Trace.empty) crowd := by
    decide +kernel
  obtain ⟨state, reached, facts⟩ := Option.map_eq_some_iff.mp crowd_fills
  obtain ⟨standing, full, within⟩ : state.1.ops 2 = .active ∧
      state.2.logged.card = LOGSIZE - 1 ∧ (insert 29 (state.2.used 2)).card = MAXOPBLOCKS := by
    simpa only [Prod.mk.injEq] using facts
  have room := ((Reached.run reached).sound_iff (.logWrite 2 29)).mp
    (sound 2 crowd state (.logWrite 2 29) reached
      (meets.mono fun _ _ => WithinBudget.mono large) (within.trans_le large))
  have bounded := room standing
  omega

/-- Operations that keep to MAXOPBLOCKS can still fill the log. -/
theorem crowd_panics : ¬ Reserves MAXOPBLOCKS :=
  not_reserves_of_le (Nat.le_refl _)

/-- The reservation of `begin_op` is enough for operations of at most `budget` distinct
blocks exactly when that is fewer than MAXOPBLOCKS; and in every run, whatever the
operations write, `log_write` and `commit` stay inside the log area exactly when the
distinct blocks of the transaction leave room. -/
theorem reservation_sound_iff (budget : Nat) : (Reserves budget ↔ budget < MAXOPBLOCKS) ∧
      ∀ start events state event, run opTrack (initlog start, Trace.empty) events = some state →
        (Sound state.1 event ↔ HasRoom state event) := by
  refine ⟨⟨fun sound => ?_, reserves_of_lt⟩, fun start events state event reached => ?_⟩
  · by_contra large
    exact not_reserves_of_le (Nat.le_of_not_lt large) sound
  · exact (Reached.run reached).sound_iff event

theorem reservation_sound_nine : Reserves 9 :=
  (reservation_sound_iff 9).1.mpr (by decide)

end Xv6.Log
