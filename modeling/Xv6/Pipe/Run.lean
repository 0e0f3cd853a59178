import Xv6.Lib.Runs
import Xv6.Pipe

/- Any number of processes at one pipe, one section of its lock after the other. -/
namespace Xv6.Pipe

open Runs

/-- The two addresses that processes sleep on: `&p->nread` and `&p->nwrite`. -/
inductive Chan where
  | nread | nwrite
  deriving DecidableEq

inductive Pc where
  | outside
  | writing (rest : List UInt8)
  | reading (n : Nat)
  deriving DecidableEq

structure Thread where
  pc : Pc
  asleep : Option Chan
  killed : Bool

/-- A call of pipewrite: its argument, what of it was stored, and what it returned. -/
structure WriteCall where
  buffer : List UInt8
  stored : List UInt8
  result : Option Int

/-- The pipe and the processes that use it, and beside them every byte that was stored, with
its writer, every byte that piperead returned, and the writes of each process, the latest
first. -/
structure System (ι : Type) where
  pipe : Pipe
  thread : ι → Thread
  stored : List (ι × UInt8)
  returned : List UInt8
  calls : ι → List WriteCall

/-- A kill can come at any point: `seen` is the flag as the section reads it, `late` as it
is when the section is over. -/
inductive Event (ι : Type) where
  | write (q : ι) (bytes : List UInt8) (seen late : Bool)
  | read (q : ι) (n : Nat) (seen late : Bool)
  | resume (q : ι) (seen late : Bool)
  | kill (q : ι)
  | close (writable : Bool)

variable {ι : Type}

def System.start (data : Fin PIPESIZE → UInt8) : System ι where
  pipe := alloc data
  thread := fun _ => ⟨.outside, none, false⟩
  stored := []
  returned := []
  calls := fun _ => []

def System.wakeup (s : System ι) (chan : Chan) : System ι :=
  { s with thread := fun q =>
      if (s.thread q).asleep = some chan then { s.thread q with asleep := none } else s.thread q }

variable [DecidableEq ι]

def System.set (s : System ι) (q : ι) (t : Thread) : System ι :=
  { s with thread := Function.update s.thread q t }

def WriteExit.result (call : WriteCall) : WriteExit → Option Int
  | .done => some call.buffer.length
  | .failed _ => some (-1)
  | .sleep _ => none

/-- A write begins with nothing stored. -/
def System.begin (s : System ι) (q : ι) (bytes : List UInt8) : System ι :=
  { s with calls := Function.update s.calls q (⟨bytes, [], none⟩ :: s.calls q) }

/-- The latest write of `q` stored these bytes and came to this exit. -/
def System.account (s : System ι) (q : ι) (bytes : List UInt8) (exit : WriteExit) : System ι :=
  { s with
    stored := s.stored ++ bytes.map fun b => (q, b)
    calls := Function.update s.calls q ((s.calls q).modifyHead fun call =>
      ⟨call.buffer, call.stored ++ bytes, exit.result call⟩) }

def System.writeSection (s : System ι) (q : ι) (bytes : List UInt8) (seen late : Bool) : System ι :=
  let (pipe, exit) := writeLoop seen s.pipe bytes
  let s := { s with pipe := pipe }.account q (bytes.take (bytes.length - exit.rest.length)) exit
  match exit with
  | .done => (s.wakeup .nread).set q ⟨.outside, none, late⟩
  | .failed _ => s.set q ⟨.outside, none, late⟩
  | .sleep rest => (s.wakeup .nread).set q ⟨.writing rest, some .nwrite, late⟩

def System.readSection (s : System ι) (q : ι) (n : Nat) (seen late : Bool) : System ι :=
  match Pipe.readSection seen s.pipe n with
  | (pipe, .done bytes) =>
    ({ s with pipe := pipe, returned := s.returned ++ bytes }.wakeup .nwrite).set q
      ⟨.outside, none, late⟩
  | (_, .failed) => s.set q ⟨.outside, none, late⟩
  | (_, .sleep) => s.set q ⟨.reading n, some .nread, late⟩

/-- Flags are only set: one that is set is seen, and one that is seen stays. -/
def System.Sees (s : System ι) (q : ι) (seen late : Bool) : Prop :=
  ((s.thread q).killed = true → seen = true) ∧ (seen = true → late = true)

instance (s : System ι) (q : ι) (seen late : Bool) : Decidable (s.Sees q seen late) :=
  inferInstanceAs (Decidable (_ ∧ _))

/-- The page is freed when both ends are closed; nothing happens to the pipe after that. -/
def step (s : System ι) (event : Event ι) : Option (System ι) :=
  if s.pipe.readopen = false ∧ s.pipe.writeopen = false then none
  else
    match event with
    | .write q bytes seen late =>
      if (s.thread q).pc = .outside ∧ s.Sees q seen late then
        some ((s.begin q bytes).writeSection q bytes seen late)
      else none
    | .read q n seen late =>
      if (s.thread q).pc = .outside ∧ s.Sees q seen late then some (s.readSection q n seen late)
      else none
    | .resume q seen late =>
      if (s.thread q).asleep = none ∧ s.Sees q seen late then
        match (s.thread q).pc with
        | .outside => none
        | .writing rest => some (s.writeSection q rest seen late)
        | .reading n => some (s.readSection q n seen late)
      else none
    | .kill q => some (s.set q { s.thread q with killed := true, asleep := none })
    | .close true => some ({ s with pipe := s.pipe.close true }.wakeup .nread)
    | .close false => some ({ s with pipe := s.pipe.close false }.wakeup .nwrite)

/-- The ways a step can go. -/
inductive Moves (s : System ι) : Event ι → System ι → Prop where
  | write (q : ι) (bytes : List UInt8) (seen late : Bool) (outside : (s.thread q).pc = .outside) :
      Moves s (.write q bytes seen late) ((s.begin q bytes).writeSection q bytes seen late)
  | rewrite (q : ι) (rest : List UInt8) (seen late : Bool) (awake : (s.thread q).asleep = none)
      (writing : (s.thread q).pc = .writing rest) :
      Moves s (.resume q seen late) (s.writeSection q rest seen late)
  | read (q : ι) (n : Nat) (seen late : Bool) (event : Event ι)
      (reads : event = .read q n seen late ∨
        event = .resume q seen late ∧ (s.thread q).pc = .reading n) :
      Moves s event (s.readSection q n seen late)
  | kill (q : ι) : Moves s (.kill q) (s.set q { s.thread q with killed := true, asleep := none })
  | closeWrite : Moves s (.close true) ({ s with pipe := s.pipe.close true }.wakeup .nread)
  | closeRead : Moves s (.close false) ({ s with pipe := s.pipe.close false }.wakeup .nwrite)

theorem step_moves {s s' : System ι} {event : Event ι} (taken : step s event = some s') :
    Moves s event s' := by
  unfold Pipe.step at taken
  split at taken
  · cases taken
  cases event with
  | write q bytes seen late =>
    simp only [Option.ite_none_right_eq_some, Option.some.injEq] at taken
    obtain ⟨⟨outside, -⟩, rfl⟩ := taken
    exact .write q bytes seen late outside
  | read q n seen late =>
    simp only [Option.ite_none_right_eq_some, Option.some.injEq] at taken
    obtain ⟨-, rfl⟩ := taken
    exact .read q n seen late _ (.inl rfl)
  | resume q seen late =>
    simp only [Option.ite_none_right_eq_some] at taken
    obtain ⟨⟨awake, -⟩, resumed⟩ := taken
    split at resumed <;> cases resumed
    · exact .rewrite q _ seen late awake ‹_›
    · exact .read q _ seen late _ (.inr ⟨rfl, ‹_›⟩)
  | kill q =>
    cases taken
    exact .kill q
  | close writable =>
    cases writable <;> cases taken
    · exact .closeRead
    · exact .closeWrite

/-- What the bytes of a run have in common: the stored ones are those returned followed by
those in the ring, each writer's are the stored parts of its calls in order, and each call
stores a beginning of its buffer, the whole of it if it returns its length. -/
structure Fifo (s : System ι) : Prop where
  ring : ∃ contents, s.pipe.Holds contents ∧ s.stored.map Prod.snd = s.returned ++ contents
  order : ∀ q, (s.stored.filter fun b => b.1 = q).map Prod.snd =
    (s.calls q).reverse.flatMap WriteCall.stored
  parts : ∀ q, ∀ call ∈ s.calls q, call.stored <+: call.buffer ∧
    ∀ n, call.result = some n → n = -1 ∨ n = call.buffer.length ∧ call.stored = call.buffer
  pending : ∀ q rest, (s.thread q).pc = .writing rest →
    ∃ call older, s.calls q = call :: older ∧ call.stored ++ rest = call.buffer ∧ call.result = none

omit [DecidableEq ι] in
@[simp] theorem wakeup_pc (s : System ι) (chan : Chan) (q : ι) :
    ((s.wakeup chan).thread q).pc = (s.thread q).pc := by
  simp only [System.wakeup]
  split <;> rfl

/-- Nothing but who sleeps and who is killed changes, or a process leaves its call. -/
theorem Fifo.keep {s s' : System ι} (fifo : Fifo s)
    (pipe : ∀ contents, s.pipe.Holds contents → s'.pipe.Holds contents)
    (stored : s'.stored = s.stored) (returned : s'.returned = s.returned)
    (calls : s'.calls = s.calls)
    (pcs : ∀ q rest, (s'.thread q).pc = .writing rest → (s.thread q).pc = .writing rest) :
    Fifo s' := by
  obtain ⟨⟨contents, holds, split⟩, order, parts, pending⟩ := fifo
  refine ⟨⟨contents, pipe contents holds, by rw [stored, returned, split]⟩, ?_, ?_, ?_⟩
  · rw [stored, calls]
    exact order
  · rw [calls]
    exact parts
  · grind

theorem set_pc_of_ne (s : System ι) {q other : ι} (t : Thread) (apart : other ≠ q) :
    ((s.set q t).thread other).pc = (s.thread other).pc := by
  simp [System.set, apart]

/-- What a section of pipewrite leaves: the bytes it stored are counted to the call it is part of.
-/
theorem writeSection_spec {s : System ι} {q : ι} (bytes : List UInt8) (seen late : Bool)
    {call : WriteCall} {older : List WriteCall} {contents : List UInt8}
    (holds : s.pipe.Holds contents) (current : s.calls q = call :: older) :
    ∃ stored exit, writeLoop seen s.pipe bytes = ((s.writeSection q bytes seen late).pipe, exit) ∧
      bytes = stored ++ exit.rest ∧
      (s.writeSection q bytes seen late).pipe.Holds (contents ++ stored) ∧
      (s.writeSection q bytes seen late).stored = s.stored ++ stored.map (fun b => (q, b)) ∧
      (s.writeSection q bytes seen late).returned = s.returned ∧
      (s.writeSection q bytes seen late).calls =
        Function.update s.calls q (⟨call.buffer, call.stored ++ stored, exit.result call⟩ ::
          older) ∧
      (∀ other, other ≠ q →
        ((s.writeSection q bytes seen late).thread other).pc = (s.thread other).pc) ∧
      ∀ rest, ((s.writeSection q bytes seen late).thread q).pc = .writing rest →
        exit = .sleep rest := by
  have wrote := @Holds.writeLoop _ _ seen bytes holds
  unfold System.writeSection
  generalize writeLoop seen s.pipe bytes = result at wrote ⊢
  obtain ⟨pipe, exit⟩ := result
  obtain ⟨⟨stored, split, after⟩, -⟩ := wrote
  have taken : bytes.take (bytes.length - exit.rest.length) = stored := by
    rw [split, List.length_append, Nat.add_sub_cancel, List.take_left']
    rfl
  dsimp only
  rw [taken]
  refine ⟨stored, exit, ?_, split, ?_, ?_, ?_, ?_, fun other apart => ?_, fun rest writing => ?_⟩
  · cases exit <;> rfl
  · cases exit <;> exact after
  · cases exit <;> rfl
  · cases exit <;> rfl
  · cases exit <;> simp [System.account, System.wakeup, System.set, current]
  · cases exit <;> simp [set_pc_of_ne _ _ apart, System.account]
  · cases exit <;> simp_all [System.set]

theorem filter_writer (q other : ι) (bytes : List UInt8) :
    ((bytes.map fun b => (q, b)).filter fun b => b.1 = other).map Prod.snd =
      if other = q then bytes else [] := by
  by_cases same : other = q
  · subst same
    simp [List.filter_map, Function.comp_def]
  · simp [List.filter_map, Function.comp_def, same, Ne.symm same]

/-- A section of the latest write of `q`, which has these bytes left to store. -/
theorem Fifo.writeSection {s : System ι} {q : ι} {bytes : List UInt8} {call : WriteCall}
    {older : List WriteCall} (fifo : Fifo s) (seen late : Bool)
    (current : s.calls q = call :: older) (left : call.stored ++ bytes = call.buffer) :
    Fifo (s.writeSection q bytes seen late) := by
  obtain ⟨⟨contents, holds, split⟩, order, parts, pending⟩ := fifo
  obtain ⟨stored, exit, -, bytesSplit, after, storedEq, returnedEq, callsEq, others, mine⟩ :=
    writeSection_spec bytes seen late holds current
  have leftover : call.stored ++ stored ++ exit.rest = call.buffer := by
    rw [List.append_assoc, ← bytesSplit, left]
  refine ⟨⟨contents ++ stored, after, ?_⟩, fun other => ?_, fun other => ?_, fun other rest => ?_⟩
  · rw [storedEq, returnedEq, List.map_append, split]
    simp [Function.comp_def]
  · rw [storedEq, callsEq, List.filter_append, List.map_append, order, filter_writer]
    by_cases same : other = q
    · subst same
      simp [current]
    · simp [same]
  · rw [callsEq]
    by_cases same : other = q
    · subst same
      rw [Function.update_self]
      intro some member
      rcases List.mem_cons.mp member with rfl | old
      · refine ⟨⟨exit.rest, leftover⟩, fun n result => ?_⟩
        cases exit with
        | done =>
          have whole : call.stored ++ stored = call.buffer := by
            simpa [WriteExit.rest] using leftover
          exact .inr ⟨(Option.some.inj result).symm, whole⟩
        | failed _ => exact .inl (Option.some.inj result).symm
        | sleep _ => cases result
      · exact parts other some (by rw [current]; exact List.mem_cons_of_mem _ old)
    · grind
  · intro writing
    rw [callsEq]
    by_cases same : other = q
    · subst same
      have slept := mine rest writing
      subst slept
      exact ⟨_, older, Function.update_self .., leftover, rfl⟩
    · grind

theorem Fifo.wakeup {s : System ι} (fifo : Fifo s) (chan : Chan) : Fifo (s.wakeup chan) :=
  fifo.keep (fun _ holds => holds) rfl rfl rfl fun q rest writing => by rwa [wakeup_pc] at writing

theorem Fifo.set {s : System ι} (fifo : Fifo s) (q : ι) (t : Thread)
    (pc : ∀ rest, t.pc = .writing rest → (s.thread q).pc = .writing rest) : Fifo (s.set q t) := by
  refine fifo.keep (fun _ holds => holds) rfl rfl rfl fun other rest writing => ?_
  by_cases same : other = q
  · subst same
    exact pc rest (by simpa [System.set] using writing)
  · rwa [set_pc_of_ne s t same] at writing

theorem Fifo.readSection {s : System ι} (fifo : Fifo s) (q : ι) (n : Nat) (seen late : Bool) :
    Fifo (s.readSection q n seen late) := by
  obtain ⟨contents, holds, split⟩ := fifo.ring
  have took := @Holds.readLoop _ _ n holds
  unfold System.readSection Pipe.readSection
  generalize readLoop s.pipe n = result at took ⊢
  obtain ⟨pipe, bytes⟩ := result
  obtain ⟨⟨left, front, after, -⟩, -⟩ := took
  by_cases waits : s.pipe.empty = true ∧ s.pipe.writeopen = true
  · grind [set]
  · rw [if_neg waits]
    have read : Fifo { s with pipe := pipe, returned := s.returned ++ bytes } :=
      ⟨⟨left, after, by rw [split, front, List.append_assoc]⟩, fifo.order, fifo.parts, fifo.pending⟩
    exact (read.wakeup .nwrite).set q _ (by simp)

theorem Fifo.begin {s : System ι} (fifo : Fifo s) {q : ι} (bytes : List UInt8)
    (outside : (s.thread q).pc = .outside) : Fifo (s.begin q bytes) := by
  refine ⟨fifo.ring, fun other => ?_, fun other => ?_, fun other rest writing => ?_⟩
  · change _ = ((Function.update s.calls q _) other).reverse.flatMap _
    refine (fifo.order other).trans ?_
    by_cases same : other = q
    · subst same
      simp
    · simp [same]
  · by_cases same : other = q
    · subst same
      simpa [System.begin] using fifo.parts other
    · simpa [System.begin, same] using fifo.parts other
  · have apart : other ≠ q := by
      rintro rfl
      rw [show (s.thread other).pc = .writing rest from writing] at outside
      cases outside
    simpa [System.begin, apart] using fifo.pending other rest writing

theorem Fifo.step {s s' : System ι} {event : Event ι} (fifo : Fifo s)
    (taken : step s event = some s') : Fifo s' := by
  cases step_moves taken with
  | write q bytes seen late outside =>
    exact (fifo.begin bytes outside).writeSection seen late (Function.update_self ..) rfl
  | rewrite q rest seen late awake writing =>
    obtain ⟨call, older, current, left, -⟩ := fifo.pending q rest writing
    exact fifo.writeSection seen late current left
  | read q n seen late event reads => exact fifo.readSection q n seen late
  | kill q => exact fifo.set q _ fun rest writing => writing
  | closeWrite =>
    apply Fifo.wakeup
    exact fifo.keep (fun _ holds => holds.close true) rfl rfl rfl fun _ _ writing => writing
  | closeRead =>
    apply Fifo.wakeup
    exact fifo.keep (fun _ holds => holds.close false) rfl rfl rfl fun _ _ writing => writing

theorem fifo_start (data : Fin PIPESIZE → UInt8) : Fifo (System.start data : System ι) where
  ring := ⟨[], Holds.alloc data, rfl⟩
  order := fun _ => rfl
  parts := fun _ _ member => absurd member List.not_mem_nil
  pending := fun _ _ writing => by cases writing

theorem fifo_of_run {data : Fin PIPESIZE → UInt8} {events : List (Event ι)} {final : System ι}
    (reached : run step (System.start data) events = some final) : Fifo final :=
  run_keeps (fun _ _ _ _ fifo taken => fifo.step taken) (fun _ _ => trivial) reached
    (fifo_start data)

theorem empty_of_readSection {killed : Bool} {p : Pipe} {n : Nat} (room : 0 < n)
    (nothing : (readSection killed p n).2 = .done []) : p.empty = true ∧ p.writeopen = false := by
  unfold Pipe.readSection at nothing
  by_cases waits : p.empty = true ∧ p.writeopen = true
  · grind
  · obtain ⟨m, rfl⟩ := Nat.exists_eq_add_of_lt room
    have empty : p.empty = true := by
      by_contra some
      simp [readLoop, some] at nothing
    exact ⟨empty, by simpa [empty] using waits⟩

/-- After any sections of any writers and readers, the bytes that piperead returned are the
first of those that were stored, at most PIPESIZE are left (and the counters, however often
they have wrapped, say how many), each writer's bytes are stored in the order of its calls
and its buffers, and a piperead with room that returns 0 finds the write end closed and no
byte unread. -/
theorem pipe_fifo (data : Fin PIPESIZE → UInt8) (events : List (Event ι)) (final : System ι)
    (reached : run step (System.start data) events = some final) :
    final.returned <+: final.stored.map Prod.snd ∧
    final.stored.length - final.returned.length ≤ PIPESIZE ∧
    (final.pipe.nwrite - final.pipe.nread).toNat = final.stored.length - final.returned.length ∧
    (∀ q, (final.stored.filter fun b => b.1 = q).map Prod.snd =
        (final.calls q).reverse.flatMap WriteCall.stored ∧
      ∀ call ∈ final.calls q, call.stored <+: call.buffer ∧
        ∀ n, call.result = some n → n = -1 ∨ n = call.buffer.length ∧ call.stored = call.buffer) ∧
    ∀ killed n, 0 < n → (readSection killed final.pipe n).2 = .done [] →
      final.pipe.writeopen = false ∧ final.returned = final.stored.map Prod.snd := by
  have fifo := fifo_of_run reached
  obtain ⟨contents, holds, split⟩ := fifo.ring
  have unread : final.stored.length - final.returned.length = contents.length := by
    have lengths := congrArg List.length split
    rw [List.length_map, List.length_append] at lengths
    omega
  refine ⟨⟨contents, split.symm⟩, ?_, ?_, fun q => ⟨fifo.order q, fifo.parts q⟩, ?_⟩
  · rw [unread]
    exact holds.room
  · have room := holds.room
    rw [unread, holds.count, UInt32.add_comm, UInt32.add_sub_cancel, UInt32.toNat_ofNat']
    simp only [PIPESIZE] at room
    omega
  · intro killed n room nothing
    have empty := empty_of_readSection room nothing
    have none : contents = [] := holds.empty_iff.mp empty.1
    refine ⟨empty.2, ?_⟩
    rw [split, none, List.append_nil]

/-- One process writes three bytes, another reads two of them. -/
def writeRead : List (Event Bool) := [.write true [7, 8, 9] false false, .read false 2 false false]

theorem pipe_fifo_writeRead : ∃ final,
    run step (System.start fun _ => 0) writeRead = some final ∧ final.returned = [7, 8] ∧
      final.returned <+: final.stored.map Prod.snd := by
  have ran : (run step (System.start fun _ => 0) writeRead).map System.returned = some [7, 8] := by
    decide +kernel
  obtain ⟨final, reached, returned⟩ := Option.map_eq_some_iff.mp ran
  exact ⟨final, reached, returned, (pipe_fifo _ writeRead final reached).1⟩

end Xv6.Pipe
