import Mathlib.Data.Set.Card
import Xv6.Bcache.Transparent

/- bget can give a buffer to another block if no process has taken it and the log has not
pinned it. There are NBUF buffers for NPROC processes, and for the log. -/
namespace Xv6.Bio

open Ring Runs

variable {Data : Type} {m : Machine Data} {g : Ghost Data}

/-- A process holds the buffer, or has it from `bget` and waits for its lock, or is about to drop
it. -/
def Machine.Taken (m : Machine Data) (b : Fin NBUF) : Prop :=
  (m.cache.buf b).lock ≠ none ∨ ∃ p, (m.pc p).WaitsOn b

/-- The buffers that processes have taken, and those that are dirty. -/
def Machine.busy (m : Machine Data) : Set (Fin NBUF) :=
  {b | m.Taken b ∨ (m.cache.buf b).dirty = true}

theorem Tidy.taken_iff (tidy : Tidy m) (b : Fin NBUF) : m.Taken b ↔ (m.cache.buf b).refcnt ≠ 0 := by
  obtain ⟨n, ⟨processes, member, card⟩, counted⟩ := tidy.counted b
  rw [counted]
  constructor
  · rintro (held | ⟨p, waits⟩)
    · cases lock : (m.cache.buf b).lock with
      | none => exact (held lock).elim
      | some holder => exact Nat.ne_of_gt (Nat.add_pos_left Nat.one_pos n)
    · have some : 0 < processes.card := Finset.card_pos.mpr ⟨p, (member p).mpr waits⟩
      omega
  · intro positive
    by_cases held : (m.cache.buf b).lock = none
    · rw [held] at positive
      change 0 + n ≠ 0 at positive
      obtain ⟨p, waits⟩ := Finset.card_pos.mp (show 0 < processes.card by omega)
      exact Or.inr ⟨p, (member p).mp waits⟩
    · exact Or.inl held

/-- A buffer is left if not all of them are busy. -/
theorem Tidy.idle_iff (tidy : Tidy m) :
    (∃ b, (m.cache.buf b).refcnt = 0 ∧ (m.cache.buf b).dirty = false) ↔ m.busy.ncard < NBUF := by
  have most : m.busy.ncard ≤ NBUF := by
    have subset := Set.ncard_le_ncard (Set.subset_univ m.busy)
    rwa [Set.ncard_univ, Nat.card_eq_fintype_card, Fintype.card_fin] at subset
  have all : m.busy.ncard = NBUF ↔ m.busy = Set.univ := by
    rw [Set.eq_univ_iff_ncard, Nat.card_eq_fintype_card, Fintype.card_fin]
  have idle : m.busy = Set.univ ↔ ¬ ∃ b, (m.cache.buf b).refcnt = 0 ∧ (m.cache.buf b).dirty =
    false := by
    rw [Set.eq_univ_iff_forall, not_exists]
    refine forall_congr' fun b => ?_
    change m.Taken b ∨ _ ↔ _
    rw [tidy.taken_iff, not_and_or, Bool.not_eq_false]
  grind

theorem Tidy.bget_panics (tidy : Tidy m) (dev blockno : Nat) :
    Bio.bget m.cache dev blockno = .panic "bget: no buffers" ↔
      ¬ ((∃ b, (m.cache.buf b).dev = dev ∧ (m.cache.buf b).blockno = blockno) ∨
        m.busy.ncard < NBUF) := by
  rw [← tidy.idle_iff, not_or, not_exists, not_exists]
  have backward : ∀ b, b ∈ m.cache.backward := by grind [directions, mem_forward]
  unfold Bio.bget
  constructor
  · intro panicked
    split at panicked
    · cases panicked
    · rename_i missing
      split at panicked
      · cases panicked
      · rename_i none
        refine ⟨fun b same => ?_, fun b free => ?_⟩
        · exact List.find?_eq_none.mp missing b (tidy.mem_forward b) (decide_eq_true same)
        · exact List.find?_eq_none.mp none b (backward b) (decide_eq_true free)
  · grind

theorem iderw_panics {disk : Nat → Data} {disksize p : Nat} {b : Buf Data} :
    iderw disk disksize p b ≠ .panic "bget: no buffers" := by
  grind [iderw]

theorem opStep_panics {log : Log.LogState} {event : Log.OpEvent} :
    Log.opStep log event ≠ .panic "bget: no buffers" := by
  cases event <;>
    simp only [Log.opStep, Log.beginOp, Log.logWriteCheck, Log.logWriteAbsorb, Log.endOp,
    Log.commit, Log.finish] <;> repeat' split
  all_goals simp

/-- Only `bget` gives this panic. -/
theorem step_panics {event : Event Data} (panicked : step m event = .panic "bget: no buffers") :
    ∃ p dev blockno, event = .bget p dev blockno ∧ m.pc p = .idle ∧
      bget m.cache dev blockno = .panic "bget: no buffers" := by
  cases event with
  | bget p dev blockno =>
    grind [step, Outcome.map_eq_panic]
  | acquiresleep p =>
    grind [step, acquiresleep]
  | bread p =>
    grind [step, bread, iderw_panics, Outcome.map_eq_panic]
  | modify p b data =>
    grind [step, modify]
  | logWrite p b =>
    simp only [step, logWriteCheck] at panicked
    split at panicked
    · exact (@opStep_panics _ (.logWrite p (m.cache.buf b).blockno)
        (Outcome.map_eq_panic.mp panicked)).elim
    · cases panicked
  | absorb p =>
    simp only [step, logWriteAbsorb] at panicked
    split at panicked
    · exact (@opStep_panics _ (.absorb p) (Outcome.map_eq_panic.mp panicked)).elim
    · cases panicked
  | bwrite p b =>
    grind [step, bwrite, iderw_panics, Outcome.map_eq_panic]
  | releasesleep p b =>
    grind [step, brelseLocked]
  | brelse p =>
    grind [step]
  | beginOp p | endOp p | commit p | finish p =>
    grind [step, Machine.logCall, opStep_panics, Outcome.map_eq_panic]

/-- At every point of every interleaving of disciplined processes a step runs out of buffers just if
it asks for a block that is not cached while each buffer is taken by a process or dirty. -/
theorem bget_finds_buffer (zero : Data) (disk : Nat → Data) (disksize : Nat) (log : Log.LogState)
    (events : List (Event Data)) (m : Machine Data) (g : Ghost Data)
    (reached : run track (boot zero disk disksize log, ⟨disk, fun _ => false⟩) events = some (m, g))
    (disciplined : Meets track Disciplined (boot zero disk disksize log, ⟨disk, fun _ => false⟩)
      events)
    (event : Event Data) : step m event ≠ .panic "bget: no buffers" ↔
      ∀ p dev blockno, event = .bget p dev blockno → m.pc p = .idle →
        (∃ b, (m.cache.buf b).dev = dev ∧ (m.cache.buf b).blockno = blockno) ∨
          m.busy.ncard < NBUF := by
  have tidy := (Inv.run reached disciplined).tidy
  constructor
  · rintro fine p dev blockno rfl idle
    by_contra lacking
    apply fine
    simp only [step]
    rw [if_pos idle, (tidy.bget_panics dev blockno).mpr lacking]
    rfl
  · intro enough panicked
    obtain ⟨p, dev, blockno, same, idle, panicked⟩ := step_panics panicked
    exact (tidy.bget_panics dev blockno).mp panicked (enough p dev blockno same idle)

/-- A block that is not cached gets a buffer that is left. -/
theorem bget_finds_buffer_pinned : ∃ m g,
    run track (boot 0 id 10 (Log.initlog 2), ⟨id, fun _ => false⟩) pinnedRun = some (m, g) ∧
    (∀ b, (m.cache.buf b).blockno ≠ 9) ∧ step m (.bget 1 ROOTDEV 9) ≠
      .panic "bget: no buffers" := by
  obtain ⟨⟨m, g⟩, reached, uncached, idle⟩ :
      ∃ state ∈ run track (boot 0 id 10 (Log.initlog 2), ⟨id, fun _ => false⟩) pinnedRun,
        (∀ b, (state.1.cache.buf b).blockno ≠ 9) ∧
        ∃ b, (state.1.cache.buf b).refcnt = 0 ∧ (state.1.cache.buf b).dirty = false := by
    decide +kernel
  have disciplined : Meets track Disciplined
      (boot 0 id 10 (Log.initlog 2), ⟨id, fun _ => false⟩) pinnedRun := by decide +kernel
  have enough := (Inv.run reached disciplined).tidy.idle_iff.mp idle
  exact ⟨m, g, reached, uncached, (bget_finds_buffer 0 id 10 (Log.initlog 2) pinnedRun m g reached
    disciplined _).mpr fun _ _ _ _ _ => Or.inr enough⟩

/-- As many readers as there are buffers, each with a block of its own. -/
def readers : List (Event Nat) :=
  (List.range NBUF).flatMap fun p => [.bget p ROOTDEV (100 + p), .acquiresleep p]

/-- The next reader finds no buffer. No block is logged, and no buffer is dirty. -/
theorem bget_runs_out : NBUF < NPROC ∧ ∃ m g,
    run track (boot 0 id 1000 (Log.initlog 2), ⟨id, fun _ => false⟩) readers = some (m, g) ∧
    Meets track Disciplined (boot 0 id 1000 (Log.initlog 2), ⟨id, fun _ => false⟩) readers ∧
      m.log.lh.n = 0 ∧ (∀ b, (m.cache.buf b).dirty = false) ∧ m.pc NBUF = .idle ∧
    step m (.bget NBUF ROOTDEV (100 + NBUF)) = .panic "bget: no buffers" := by
  have facts : (run track (boot 0 id 1000 (Log.initlog 2), ⟨id, fun _ => false⟩) readers).map
    (fun state =>
      (decide (state.1.log.lh.n = 0 ∧ (∀ b, (state.1.cache.buf b).dirty = false) ∧
        state.1.pc NBUF = .idle),
        (step state.1 (.bget NBUF ROOTDEV (100 + NBUF))).message)) =
        some (true, some "bget: no buffers") := by
    decide +kernel
  obtain ⟨⟨m, g⟩, reached, facts⟩ := Option.map_eq_some_iff.mp facts
  rw [Prod.mk.injEq, decide_eq_true_eq, Outcome.message_eq_some] at facts
  obtain ⟨⟨empty, clean, idle⟩, panicked⟩ := facts
  exact ⟨by decide, m, g, reached, by decide +kernel, empty, clean, idle, panicked⟩

end Xv6.Bio
