import Xv6.Log.Reservation

/- Who `begin_op` lets in, and when: commits have the log to themselves, and nobody sleeps
while there is room. -/
namespace Xv6.Log

open Runs

def opNext (s : LogState) (event : OpEvent) : Option LogState := (opStep s event).toOption

/-- Whether `begin_op` would let an operation in. -/
def LogState.admits (s : LogState) : Prop :=
  s.committing = false ∧ (s.lh.n : Int) + (s.outstanding + 1) * MAXOPBLOCKS ≤ LOGSIZE

/-- Nobody sleeps on `&log` who would be let in. -/
def LogState.NoLostWakeup (s : LogState) : Prop := ∀ p, s.ops p = .sleeping → ¬ s.admits

/-- What the counters of the log guarantee. -/
structure AdmissionProtocol (s : LogState) : Prop where
  alone : s.committing = true → s.outstanding = 0
  quiet : s.committing = true → ∀ p blockno,
    opStep s (.logWrite p blockno) = .blocked ∧ opStep s (.absorb p) = .blocked
  covered : 0 < s.lh.n → s.committing = false → 0 < s.outstanding
  ending : ∀ p, opStep s (.endOp p) ≠ .panic "log.committing"
  writing : ∀ p blockno, opStep s (.logWrite p blockno) ≠ .panic "log_write outside of trans"
  awake : s.NoLostWakeup

section Trace

/-- The trace of a run can be told along with it. -/
theorem traced {s s' : LogState} {events : List OpEvent} (t : Trace)
    (reached : run opNext s events = some s') :
    ∃ t', run opTrack (s, t) events = some (s', t') := by
  induction events generalizing s t with
  | nil =>
    cases reached
    exact ⟨t, rfl⟩
  | cons event rest ih =>
    obtain ⟨next, taken, remaining⟩ := run_cons_some.mp reached
    obtain ⟨t', told⟩ := ih (t.step s next event) remaining
    have ok := Outcome.toOption_eq_some.mp taken
    exact ⟨t', run_cons_some.mpr ⟨(next, t.step s next event), opTrack_eq_some.mpr ⟨ok, rfl⟩, told⟩⟩

variable {s : LogState} {t : Trace}

theorem Reached.not_inOp (reached : Reached (s, t)) (committing : s.committing = true) (p : Nat) :
    (s.ops p).inOp = false := by
  cases inside : (s.ops p).inOp with
  | false => rfl
  | true =>
    have quiet := Exclusive.not_committing reached.linked reached.exclusive inside
    rw [committing] at quiet
    cases quiet

theorem Reached.outstanding_pos (reached : Reached (s, t)) {p : Nat}
    (inside : (s.ops p).inOp = true) :
    0 < s.outstanding := by
  have member := (reached.linked.inOp p).mp inside
  have someone : 0 < t.active.card := Finset.card_pos.mpr ⟨p, member⟩
  have count := reached.linked.count
  dsimp only at count
  omega

theorem Reached.alone (reached : Reached (s, t)) (committing : s.committing = true) :
    s.outstanding = 0 := by
  have nobody := reached.exclusive.alone committing
  have count := reached.linked.count
  rw [count, nobody]
  rfl

theorem Reached.quiet (reached : Reached (s, t)) (committing : s.committing = true)
    (p blockno : Nat) :
    opStep s (.logWrite p blockno) = .blocked ∧ opStep s (.absorb p) = .blocked := by
  have outside := reached.not_inOp committing p
  have idle : s.ops p ≠ .active := by
    intro standing
    rw [standing] at outside
    cases outside
  refine ⟨?_, ?_⟩
  · simp only [opStep, logWriteCheck, idle, ↓reduceIte]
  · simp only [opStep, logWriteAbsorb]
    split
    · rename_i other standing
      rw [standing] at outside
      cases outside
    · rfl

theorem Reached.covered (reached : Reached (s, t)) (some : 0 < s.lh.n)
    (quiet : s.committing = false) :
    0 < s.outstanding := by
  have count := reached.linked.count
  have listed := reached.linked.n_eq
  dsimp only at count listed
  by_contra none
  have nobody : t.active = ∅ := by
    rw [← Finset.card_eq_zero]
    omega
  have empty : t.logged = ∅ := reached.exclusive.between quiet nobody
  rw [empty, Finset.card_empty] at listed
  omega

theorem Reached.ending (reached : Reached (s, t)) (p : Nat) :
    opStep s (.endOp p) ≠ .panic "log.committing" := by
  simp only [opStep, endOp]
  split
  · rename_i standing
    have inside : (s.ops p).inOp = true := by rw [standing]; rfl
    have quiet := Exclusive.not_committing reached.linked reached.exclusive inside
    grind
  · simp

theorem Reached.writing (reached : Reached (s, t)) (p blockno : Nat) :
    opStep s (.logWrite p blockno) ≠ .panic "log_write outside of trans" := by
  simp only [opStep, logWriteCheck]
  split
  · rename_i standing
    have inside := reached.outstanding_pos (p := p) (by rw [standing]; rfl)
    grind
  · simp

end Trace

section Sleep

variable {s : LogState} {p : Nat} {op : Op}

theorem noLostWakeup_wakeup (s : LogState) : s.wakeup.NoLostWakeup := by
  intro q asleep
  grind [LogState.wakeup]

/-- The sleepers sleep on if the counters still keep them out. -/
theorem LogState.NoLostWakeup.setOp {next : LogState} (awake : s.NoLostWakeup)
    (ops : next.ops = Function.update s.ops p op) (moves : op ≠ .sleeping)
    (full : next.admits → s.admits) : next.NoLostWakeup := by
  intro q asleep room
  rw [ops, Function.update_apply] at asleep
  split at asleep
  · exact moves asleep
  · exact awake q asleep (full room)

/-- A step that lets the sleepers' condition come true wakes them. -/
theorem LogState.NoLostWakeup.step {s' : LogState} {t : Trace} {event : OpEvent}
    (awake : s.NoLostWakeup) (reached : Reached (s, t)) (taken : opStep s event = .ok s') :
    s'.NoLostWakeup := by
  cases event with
  | beginOp p =>
    change beginOp s p = .ok s' at taken
    unfold beginOp at taken
    split at taken
    · split at taken
      · rename_i committing
        cases taken
        intro q _ room
        have quiet : s.committing = false := room.1
        rw [committing] at quiet
        cases quiet
      · split at taken
        · cases taken
          intro q _ room
          have fits : (s.lh.n : Int) + (s.outstanding + 1) * MAXOPBLOCKS ≤ LOGSIZE := room.2
          omega
        · cases taken
          refine awake.setOp rfl (by decide) fun room => ⟨room.1, ?_⟩
          omega
    · cases taken
  | logWrite p blockno =>
    obtain ⟨_, rfl⟩ := logWriteCheck_ok taken
    exact awake.setOp rfl Op.noConfusion id
  | absorb p =>
    obtain ⟨blockno, _, rfl⟩ := logWriteAbsorb_ok taken
    refine awake.setOp rfl (by decide) fun room => ⟨room.1, ?_⟩
    have fits : ((s.lh.absorb blockno).n : Int) + (s.outstanding + 1) * MAXOPBLOCKS ≤
      LOGSIZE := room.2
    have grows : s.lh.n ≤ (s.lh.absorb blockno).n := n_le_absorb s.lh blockno
    omega
  | endOp p =>
    obtain ⟨_, _, ⟨_, rfl⟩ | ⟨_, rfl⟩⟩ := endOp_ok taken
    · intro q _ room
      cases room.1
    · exact (noLostWakeup_wakeup _).setOp rfl (by decide) id
  | commit p =>
    obtain ⟨standing, lh, _, rfl⟩ := commit_ok taken
    have committing : s.committing = true := reached.exclusive.inCommit p (by rw [standing]; rfl)
    intro q _ room
    have quiet : s.committing = false := room.1
    rw [committing] at quiet
    cases quiet
  | finish p =>
    obtain ⟨_, rfl⟩ := finish_ok taken
    exact (noLostWakeup_wakeup _).setOp rfl (by decide) id

end Sleep

/-- In any interleaving of operations, each of which log_writes between its own begin_op and
end_op, the log's counters admit operations, log_writes and commits as they should. -/
theorem log_admission (start : Nat) (events : List OpEvent) (s : LogState)
    (reached : run opNext (initlog start) events = some s) : AdmissionProtocol s := by
  obtain ⟨t, told⟩ := traced Trace.empty reached
  have now := Reached.run told
  have step : ∀ (state : LogState × Trace) event next, True → Reached state ∧ state.1.NoLostWakeup →
      opTrack state event = some next → Reached next ∧ next.1.NoLostWakeup := by
    rintro ⟨s, t⟩ event next _ ⟨here, awake⟩ taken
    exact ⟨here.step taken, awake.step here (opTrack_eq_some.mp taken).1⟩
  have start : Reached (initlog start, Trace.empty) ∧ (initlog start).NoLostWakeup :=
    ⟨⟨rfl, Linked.initlog start, Exclusive.initlog start⟩, fun _ asleep => Op.noConfusion asleep⟩
  have awake := (run_keeps step (fun _ _ => trivial) told start).2
  exact ⟨now.alone, now.quiet, now.covered, now.ending, now.writing, awake⟩

/-- Three operations are let in, the fourth sleeps until one of them ends. -/
def fourOps : List OpEvent :=
  [.beginOp 0, .beginOp 1, .beginOp 2, .beginOp 3, .logWrite 0 40, .absorb 0, .endOp 0]

theorem log_admission_fourOps :
    ∃ s, run opNext (initlog 2) fourOps = some s ∧ AdmissionProtocol s :=
  ⟨_, rfl, log_admission 2 fourOps _ rfl⟩

end Xv6.Log
