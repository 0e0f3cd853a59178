import Xv6.Pipe.Run

/- Who sleeps at a pipe, and who wakes them. Every way out of a section that changes the
ring wakes the other side, but for a write that gives up on a full pipe. -/
namespace Xv6.Pipe

open Runs

variable {ι : Type} [DecidableEq ι] {s : System ι} {chan : Chan} {q : ι} {p : Pipe}
  {contents : List UInt8} {other : ι} {t : Thread} {s' : System ι} {event : Event ι} {seen : Bool}
  {bytes : List UInt8}

/-- With the lock free, nobody sleeps whose reason to sleep is gone. -/
structure Awake (s : System ι) : Prop where
  readers : ∀ q, (s.thread q).asleep = some .nread → s.pipe.empty = true ∧ s.pipe.writeopen = true
  writers : ∀ q, (s.thread q).asleep = some .nwrite → s.pipe.full = true ∧ s.pipe.readopen = true

/-- The places of the ring that hold no byte. -/
def free (p : Pipe) : Nat := PIPESIZE - (p.nwrite - p.nread).toNat

/-- A writer that is killed, or has no reader, does not begin with more bytes than there are
free places, and at least one free place, while somebody sleeps on `&p->nread`. -/
def Notifies (s : System ι) (bytes : List UInt8) (seen : Bool) : Prop :=
  seen = true ∨ s.pipe.readopen = false → 0 < s.pipe.free → s.pipe.free < bytes.length →
    ∀ q, (s.thread q).asleep ≠ some .nread

def Wakes (s : System ι) : Event ι → Prop
  | .write _ bytes seen _ => Notifies s bytes seen
  | .resume q seen _ => ∀ rest, (s.thread q).pc = .writing rest → Notifies s rest seen
  | _ => True

omit [DecidableEq ι] in
theorem wakeup_asleep {other : Chan} (asleep : ((s.wakeup chan).thread q).asleep = some other) :
    (s.thread q).asleep = some other ∧ other ≠ chan := by
  grind [System.wakeup]

theorem set_asleep (asleep : ((s.set q t).thread other).asleep = some chan) :
    other = q ∧ t.asleep = some chan ∨ other ≠ q ∧ (s.thread other).asleep = some chan := by
  by_cases same : other = q
  · subst same
    exact .inl ⟨rfl, by simpa [System.set] using asleep⟩
  · exact .inr ⟨same, by simpa [System.set, same] using asleep⟩

theorem wakeup_set_asleep {woken : Chan}
    (asleep : (((s.wakeup woken).set q t).thread other).asleep = some chan) :
    t.asleep = some chan ∨ chan ≠ woken ∧ (s.thread other).asleep = some chan := by
  rcases set_asleep asleep with ⟨-, mine⟩ | ⟨-, others⟩
  · exact .inl mine
  · exact .inr (wakeup_asleep others).symm

/-- Who is outside the two calls is awake. -/
def Idle (s : System ι) : Prop := ∀ q, (s.thread q).pc = .outside → (s.thread q).asleep = none

theorem Idle.set (idle : Idle s) (q : ι) (t : Thread)
    (awake : t.pc = .outside → t.asleep = none) : Idle (s.set q t) := by
  intro other outside
  by_cases same : other = q
  · subst same
    simp only [System.set, Function.update_self] at outside ⊢
    exact awake outside
  · simp only [System.set, Function.update_of_ne same] at outside ⊢
    exact idle other outside

omit [DecidableEq ι] in
theorem Idle.wakeup (idle : Idle s) (chan : Chan) : Idle (s.wakeup chan) := by
  intro q outside
  rw [wakeup_pc] at outside
  simp only [System.wakeup]
  split
  · rfl
  · exact idle q outside

theorem Idle.writeSection (idle : Idle s) (q : ι) (bytes : List UInt8)
    (seen late : Bool) : Idle (s.writeSection q bytes seen late) := by
  unfold System.writeSection
  generalize writeLoop seen s.pipe bytes = result
  obtain ⟨pipe, exit⟩ := result
  cases exit with
  | done => exact (Idle.wakeup (by exact idle) .nread).set q _ fun _ => rfl
  | failed rest => exact Idle.set (by exact idle) q _ fun _ => rfl
  | sleep rest =>
    exact (Idle.wakeup (by exact idle) .nread).set q _ fun impossible => by cases impossible

theorem Idle.readSection (idle : Idle s) (q : ι) (n : Nat) (seen late : Bool) :
    Idle (s.readSection q n seen late) := by
  unfold System.readSection
  split
  · exact (Idle.wakeup (by exact idle) .nwrite).set q _ fun _ => rfl
  · exact idle.set q _ fun _ => rfl
  · exact idle.set q _ fun impossible => by cases impossible

theorem Idle.step (idle : Idle s) (taken : step s event = some s') : Idle s' := by
  cases step_moves taken with
  | write q bytes seen late outside => exact Idle.writeSection (by exact idle) q bytes seen late
  | rewrite q rest seen late awake writing => exact idle.writeSection q rest seen late
  | read q n seen late event reads => exact idle.readSection q n seen late
  | kill q => exact idle.set q _ fun _ => rfl
  | closeWrite | closeRead => exact Idle.wakeup (by exact idle) _

theorem not_empty_of_full (holds : p.Holds contents) (full : p.full = true) : p.empty ≠ true := by
  intro empty
  have size := holds.full_iff.mp full
  rw [holds.empty_iff.mp empty] at size
  cases size

theorem Holds.free (holds : p.Holds contents) : p.free = PIPESIZE - contents.length := by
  have room := holds.room
  rw [Pipe.free, holds.count, UInt32.sub_eq_iff_eq_add.mpr (UInt32.add_comm _ _)]
  simp only [UInt32.toNat_ofNat', PIPESIZE] at room ⊢
  omega

/-- A write gives up with bytes left, and because of what it saw before the first of them. -/
theorem writeLoop_failed {rest : List UInt8} (gives : (writeLoop seen p bytes).2 = .failed rest) :
    rest ≠ [] ∧ (seen = true ∨ p.readopen = false) := by
  induction bytes generalizing p with
  | nil => cases gives
  | cons b bytes ih =>
    rw [writeLoop] at gives
    split at gives
    · split at gives
      · rename_i reason
        cases gives
        exact ⟨List.cons_ne_nil b bytes, reason.symm⟩
      · cases gives
    · exact @ih (p.push b) gives

/-- A section of a write keeps everybody's reason to sleep, but for the readers it leaves
asleep when it gives up after it has filled the ring. -/
theorem awake_writeSection {late : Bool} (holds : s.pipe.Holds contents) (awake : Awake s)
    (self : (s.thread q).asleep = none) :
    Awake (s.writeSection q bytes seen late) ↔ Notifies s bytes seen := by
  have wrote := @Holds.writeLoop _ _ seen bytes holds
  have gives := @writeLoop_failed s.pipe seen bytes
  unfold System.writeSection Notifies
  rw [holds.free]
  generalize writeLoop seen s.pipe bytes = result at wrote gives ⊢
  obtain ⟨pipe, exit⟩ := result
  obtain ⟨⟨stored, split, after⟩, -, readopen, writeopen, full, sleeps⟩ := wrote
  have room := after.room
  have lengths := congrArg List.length split
  rw [List.length_append] at room lengths
  have writers : ∀ other, (s.thread other).asleep = some .nwrite →
      pipe.full = true ∧ pipe.readopen = true := by
    intro other asleep
    obtain ⟨filled, opened⟩ := awake.writers other asleep
    have size := holds.full_iff.mp filled
    refine ⟨after.full_iff.mpr ?_, readopen.trans opened⟩
    rw [List.length_append]
    omega
  cases exit with
  | done =>
    have fits : bytes.length = stored.length := lengths
    refine iff_of_true ⟨fun other asleep => ?_, fun other asleep => ?_⟩ fun _ _ more => by omega
    · rcases wakeup_set_asleep asleep with impossible | ⟨impossible, -⟩
      · cases impossible
      · exact (impossible rfl).elim
    · rcases wakeup_set_asleep asleep with impossible | ⟨-, asleep⟩
      · cases impossible
      · exact writers other asleep
  | sleep rest =>
    obtain ⟨opened, unseen⟩ := sleeps rest rfl
    refine iff_of_true ⟨fun other asleep => ?_, fun other asleep => ?_⟩ fun reason => ?_
    · rcases wakeup_set_asleep asleep with impossible | ⟨impossible, -⟩
      · cases impossible
      · exact (impossible rfl).elim
    · exact ⟨full (by simp), readopen.trans opened⟩
    · simp [opened, unseen] at reason
  | failed rest =>
    obtain ⟨left, reason⟩ := gives rfl
    have filled : pipe.full = true := full (by simp)
    have size := after.full_iff.mp filled
    have more : 0 < rest.length := List.length_pos_iff.mpr left
    simp only [List.length_append, WriteExit.rest] at size lengths
    constructor
    · intro awake' _ _ _ other asleep
      have apart : other ≠ q := by grind
      have empty := (awake'.readers other (by simpa [System.set, System.account,
        apart] using asleep)).1
      exact not_empty_of_full after filled empty
    · intro notifies
      refine ⟨fun other asleep => ?_, fun other asleep => ?_⟩
      · rcases set_asleep asleep with ⟨-, impossible⟩ | ⟨-, asleep⟩
        · cases impossible
        · by_cases some : 0 < PIPESIZE - contents.length
          · exact (notifies reason some (by omega) other asleep).elim
          · -- The pipe was full before, and no reader slept.
            have before := holds.full_iff.mpr (by omega)
            exact (not_empty_of_full holds before (awake.readers other asleep).1).elim
      · rcases set_asleep asleep with ⟨-, impossible⟩ | ⟨-, asleep⟩
        · cases impossible
        · exact writers other asleep

theorem awake_readSection (awake : Awake s) (q : ι) (n : Nat) (seen late : Bool) :
    Awake (s.readSection q n seen late) := by
  unfold System.readSection Pipe.readSection
  by_cases waits : s.pipe.empty = true ∧ s.pipe.writeopen = true
  · rw [if_pos waits]
    cases seen
    · refine ⟨fun other asleep => waits, fun other asleep => ?_⟩
      rcases set_asleep asleep with ⟨-, impossible⟩ | ⟨-, asleep⟩
      · cases impossible
      · exact awake.writers other asleep
    · refine ⟨fun other asleep => waits, fun other asleep => ?_⟩
      rcases set_asleep asleep with ⟨-, impossible⟩ | ⟨-, asleep⟩
      · cases impossible
      · exact awake.writers other asleep
  · rw [if_neg waits]
    -- A reader that slept would have made this one wait too.
    refine ⟨fun other asleep => ?_, fun other asleep => ?_⟩
    · rcases wakeup_set_asleep asleep with impossible | ⟨-, asleep⟩
      · cases impossible
      · exact (waits (awake.readers other asleep)).elim
    · rcases wakeup_set_asleep asleep with impossible | ⟨impossible, -⟩
      · cases impossible
      · exact (impossible rfl).elim

theorem awake_step (fifo : Fifo s) (idle : Idle s)
    (awake : Awake s) (taken : step s event = some s') : Awake s' ↔ Wakes s event := by
  obtain ⟨contents, holds, -⟩ := fifo.ring
  cases step_moves taken with
  | write q bytes seen late outside =>
    exact @awake_writeSection _ _ (s.begin q bytes) _ _ _ _ _ holds ⟨awake.readers, awake.writers⟩
      (idle q outside)
  | rewrite q rest seen late self writing =>
    rw [awake_writeSection holds awake self]
    simp [Wakes, writing]
  | read q n seen late event reads =>
    have kept := awake_readSection awake q n seen late
    rcases reads with rfl | ⟨rfl, reading⟩
    · exact iff_of_true kept trivial
    · exact iff_of_true kept fun rest writing => by
        rw [reading] at writing
        cases writing
  | kill q =>
    refine iff_of_true ⟨fun other asleep => ?_, fun other asleep => ?_⟩ trivial
    · rcases set_asleep asleep with ⟨-, impossible⟩ | ⟨-, asleep⟩
      · cases impossible
      · exact awake.readers other asleep
    · rcases set_asleep asleep with ⟨-, impossible⟩ | ⟨-, asleep⟩
      · cases impossible
      · exact awake.writers other asleep
  | closeWrite =>
    refine iff_of_true ⟨fun other asleep => ?_, fun other asleep => ?_⟩ trivial
    · exact ((wakeup_asleep asleep).2 rfl).elim
    · exact awake.writers other (wakeup_asleep asleep).1
  | closeRead =>
    refine iff_of_true ⟨fun other asleep => ?_, fun other asleep => ?_⟩ trivial
    · exact awake.readers other (wakeup_asleep asleep).1
    · exact ((wakeup_asleep asleep).2 rfl).elim

/-- In a run, nobody ever sleeps on `&p->nread` while there is something to read or the write
end is closed, nor on `&p->nwrite` while there is room or the read end is closed, if and only
if no section of a write begins with its writer killed or the read end closed, and with a free
place but more bytes than free places, while somebody sleeps on `&p->nread`. -/
theorem no_lost_wakeup_iff (data : Fin PIPESIZE → UInt8) (events : List (Event ι))
    (final : System ι) (reached : run step (System.start data) events = some final) :
    (∀ before after middle, events = before ++ after →
      run step (System.start data) before = some middle → Awake middle) ↔
    Meets step Wakes (System.start data) events := by
  refine @all_iff_meets _ _ step Wakes (fun s => Fifo s ∧ Idle s) Awake ?_ ?_ _ _ _ reached ?_ ?_
  · exact fun s event next sound taken => ⟨sound.1.step taken, sound.2.step taken⟩
  · exact fun s event next sound awake taken => awake_step sound.1 sound.2 awake taken
  · exact ⟨fifo_start data, fun _ _ => rfl⟩
  · exact ⟨by simp [System.start], by simp [System.start]⟩

/-- A reader finds the pipe empty and sleeps; a writer stores three bytes and wakes it. -/
theorem no_lost_wakeup_iff_woken : ∃ final : System Bool, run step (System.start fun _ => 0)
      [.read false 1 false false, .write true [7, 8, 9] false false] = some final ∧
        Awake final := by
  have ran : (run step (System.start fun _ => 0 : System Bool)
      [.read false 1 false false, .write true [7, 8, 9] false false]).isSome =
      true := by decide +kernel
  obtain ⟨final, reached⟩ := Option.isSome_iff_exists.mp ran
  refine ⟨final, reached, (no_lost_wakeup_iff _ _ final reached).mpr ?_ _ [] final
    (by simp) reached⟩
  refine ⟨trivial, fun next taken => ⟨?_, fun _ _ => trivial⟩⟩
  cases taken
  exact fun reason => by cases reason <;> contradiction

/-- The reader sleeps, the writer fills the pipe and is killed before its last byte: it
returns -1, and the reader sleeps on with 512 bytes to read. -/
theorem killed_writer_leaves_reader :
    ¬ ∀ (data : Fin PIPESIZE → UInt8) (events : List (Event Bool)) (final : System Bool),
      run step (System.start data) events = some final → Awake final := by
  intro always
  have ran : (run step (System.start fun _ => 0 : System Bool)
      [.read false 1 false false, .write true (List.replicate 513 7) true true]).map
        (fun s => ((s.thread false).asleep, s.pipe.empty)) = some (some .nread, false) := by
    decide +kernel
  obtain ⟨final, reached, facts⟩ := Option.map_eq_some_iff.mp ran
  obtain ⟨asleep, nonempty⟩ := Prod.mk.inj facts
  have empty := ((always _ _ final reached).readers false asleep).1
  rw [nonempty] at empty
  cases empty

end Xv6.Pipe
