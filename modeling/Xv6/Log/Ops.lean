import Xv6.Lib.Outcome
import Xv6.Log.Header

/- begin_op, log_write and end_op of log.c by any number of operations, atomic
between two uses of `log.lock`. `log_write` makes its two checks before it takes the
lock, so it is two steps; `commit` runs without the lock and is a step of its own. -/
namespace Xv6.Log

variable {p : Nat}

/-- Where an operation stands: not in the log code, asleep on `&log` or woken in
`begin_op`, between `begin_op` and `end_op`, past the checks of `log_write(b)`, or in
`end_op` before and after its call of `commit`. -/
inductive Op where
  | outside
  | sleeping
  | woken
  | active
  | logging (blockno : Nat)
  | committer
  | committed
  deriving DecidableEq

/-- Between `begin_op` and `end_op`. -/
def Op.inOp : Op → Bool
  | .active | .logging _ => true
  | _ => false

/-- In `end_op`, as the one that commits. -/
def Op.inCommit : Op → Bool
  | .committer | .committed => true
  | _ => false

structure LogState where
  start : Nat
  size : Nat
  outstanding : Int
  committing : Bool
  lh : Logheader
  ops : Nat → Op

inductive OpEvent where
  | beginOp (p : Nat)
  | logWrite (p blockno : Nat)
  | absorb (p : Nat)
  | endOp (p : Nat)
  | commit (p : Nat)
  | finish (p : Nat)

def LogState.setOp (s : LogState) (p : Nat) (op : Op) : LogState :=
  { s with ops := Function.update s.ops p op }

/-- `wakeup(&log)`. -/
def LogState.wakeup (s : LogState) : LogState :=
  { s with ops := fun p => if s.ops p = .sleeping then .woken else s.ops p }

/-- One round of the loop of `begin_op`. -/
def beginOp (s : LogState) (p : Nat) : Outcome LogState :=
  if s.ops p = .outside ∨ s.ops p = .woken then
    if s.committing then .ok (s.setOp p .sleeping)
    else if (s.lh.n : Int) + (s.outstanding + 1) * MAXOPBLOCKS > LOGSIZE then
      .ok (s.setOp p .sleeping)
    else .ok ({ s with outstanding := s.outstanding + 1 }.setOp p .active)
  else .blocked

/-- The checks of `log_write`, made without `log.lock`. -/
def logWriteCheck (s : LogState) (p blockno : Nat) : Outcome LogState :=
  if s.ops p = .active then
    if LOGSIZE ≤ s.lh.n ∨ (s.size : Int) - 1 ≤ s.lh.n then .panic "too big a transaction"
    else if s.outstanding < 1 then .panic "log_write outside of trans"
    else .ok (s.setOp p (.logging blockno))
  else .blocked

/-- The part of `log_write` under `log.lock`. -/
def logWriteAbsorb (s : LogState) (p : Nat) : Outcome LogState :=
  match s.ops p with
  | .logging blockno => .ok ({ s with lh := s.lh.absorb blockno }.setOp p .active)
  | _ => .blocked

/-- `end_op` up to its release of `log.lock`. -/
def endOp (s : LogState) (p : Nat) : Outcome LogState :=
  if s.ops p = .active then
    if s.committing then .panic "log.committing"
    else if s.outstanding - 1 = 0 then
      .ok ({ s with outstanding := s.outstanding - 1, committing := true }.setOp p .committer)
    else .ok ({ s with outstanding := s.outstanding - 1 }.wakeup.setOp p .outside)
  else .blocked

/-- The blocks of the log area that `commit` writes: those of `write_log`, and the
header. Its home blocks are those the header lists. -/
def commitLogBlocks (s : LogState) : List Nat :=
  if 0 < s.lh.n then s.start :: (List.range s.lh.n).map fun tail => s.start + tail + 1 else []

def commit (s : LogState) (p : Nat) : Outcome LogState :=
  if s.ops p = .committer then
    .ok ({ s with lh := if 0 < s.lh.n then { s.lh with n := 0 } else s.lh }.setOp p .committed)
  else .blocked

/-- The end of `end_op`, after `commit` returned. -/
def finish (s : LogState) (p : Nat) : Outcome LogState :=
  if s.ops p = .committed then .ok ({ s with committing := false }.wakeup.setOp p .outside)
  else .blocked

def opStep (s : LogState) : OpEvent → Outcome LogState
  | .beginOp p => beginOp s p
  | .logWrite p blockno => logWriteCheck s p blockno
  | .absorb p => logWriteAbsorb s p
  | .endOp p => endOp s p
  | .commit p => commit s p
  | .finish p => finish s p

/-- The log after `initlog`, with the geometry mkfs writes: nlog = LOGSIZE. -/
def initlog (start : Nat) : LogState where
  start := start
  size := LOGSIZE
  outstanding := 0
  committing := false
  lh := ⟨0, fun _ => 0⟩
  ops := fun _ => .outside

/-- Admission, when `begin_op` does not put the operation to sleep. -/
theorem beginOp_ok {s s' : LogState} (taken : beginOp s p = .ok s') :
    (s.ops p = .outside ∨ s.ops p = .woken) ∧ (s' = s.setOp p .sleeping ∨
        (s.committing = false ∧ (s.lh.n : Int) + (s.outstanding + 1) * MAXOPBLOCKS ≤ LOGSIZE ∧
          s' = { s with outstanding := s.outstanding + 1 }.setOp p .active)) := by
  unfold beginOp at taken
  split at taken
  · rename_i standing
    refine ⟨standing, ?_⟩
    split at taken
    · cases taken
      exact Or.inl rfl
    · grind
  · cases taken

theorem logWriteCheck_ok {s s' : LogState} {blockno : Nat}
    (taken : logWriteCheck s p blockno = .ok s') :
    s.ops p = .active ∧ s' = s.setOp p (.logging blockno) := by
  unfold logWriteCheck at taken
  split at taken
  · grind
  · cases taken

theorem logWriteAbsorb_ok {s s' : LogState} (taken : logWriteAbsorb s p = .ok s') :
    ∃ blockno, s.ops p = .logging blockno ∧
      s' = { s with lh := s.lh.absorb blockno }.setOp p .active := by
  grind [logWriteAbsorb]

/-- The last operation out commits, the others leave. -/
theorem endOp_ok {s s' : LogState} (taken : endOp s p = .ok s') :
    s.ops p = .active ∧ s.committing = false ∧ ((s.outstanding = 1 ∧
          s' = { s with outstanding := s.outstanding - 1, committing := true }.setOp p .committer) ∨
        (s.outstanding ≠ 1 ∧
          s' = { s with outstanding := s.outstanding - 1 }.wakeup.setOp p .outside)) := by
  unfold endOp at taken
  split at taken
  · rename_i standing
    split at taken
    · cases taken
    rename_i quiet
    refine ⟨standing, by simpa using quiet, ?_⟩
    split at taken
    · grind
    · grind
  · cases taken

theorem commit_ok {s s' : LogState} (taken : commit s p = .ok s') :
    s.ops p = .committer ∧ ∃ lh : Logheader, lh.n = 0 ∧
      s' = { s with lh := lh }.setOp p .committed := by
  unfold commit at taken
  split at taken
  · rename_i standing
    cases taken
    refine ⟨standing, _, ?_, rfl⟩
    split
    · rfl
    · omega
  · cases taken

theorem finish_ok {s s' : LogState} (taken : finish s p = .ok s') :
    s.ops p = .committed ∧ s' = { s with committing := false }.wakeup.setOp p .outside := by
  grind [finish]

theorem setOp_ops (s : LogState) (p q : Nat) (op : Op) :
    (s.setOp p op).ops q = if q = p then op else s.ops q := by
  simp only [LogState.setOp, Function.update_apply]

@[simp] theorem wakeup_inOp (s : LogState) (p : Nat) : (s.wakeup.ops p).inOp = (s.ops p).inOp := by
  simp only [LogState.wakeup]
  split
  · rename_i asleep
    rw [asleep]
    rfl
  · rfl

@[simp] theorem wakeup_inCommit (s : LogState) (p : Nat) :
    (s.wakeup.ops p).inCommit = (s.ops p).inCommit := by
  simp only [LogState.wakeup]
  split
  · rename_i asleep
    rw [asleep]
    rfl
  · rfl

theorem wakeup_ops_eq (s : LogState) (p : Nat) {op : Op} (awake : op ≠ .woken)
    (standing : s.wakeup.ops p = op) : s.ops p = op := by
  grind [LogState.wakeup]

end Xv6.Log
