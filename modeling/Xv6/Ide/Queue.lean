import Mathlib.Data.Fintype.EquivFin
import Xv6.Ide

/- The queue of the disk driver. Its head is the one request that the disk works on, and the
requests are completed in the order in which they came. -/
namespace Xv6.Ide

open Exec Chain Runs

variable {Data : Type} {allowed : Stops} {s s' : State Data} {q rest : List (Fin NBUF)}
  {b : Fin NBUF} {p : Fin NPROC} {c : Call}

/-- The queue `q`, what the disk works on, and who waits for what. -/
structure Sound (s : State Data) (q : List (Fin NBUF)) : Prop where
  chain : Chained s.qnext s.idequeue q
  queued : s.queued = s.completed ++ q
  started : s.started.map Command.buf = s.completed ++ q.take 1
  interrupts : s.interrupts = s.completed.length
  owner : ∀ p c, s.calls p = some c → (s.buf c.buf).lock = some p
  number : ∀ p c, s.calls p = some c → s.queued[c.number]? = some c.buf
  waits : ∀ p c, s.calls p = some c → ((s.buf c.buf).done = true ↔ c.number < s.completed.length)
  awake : ∀ p c, s.calls p = some c → c.asleep = true → s.completed.length ≤ c.number
  caller : ∀ b ∈ q, ∃ p c, s.calls p = some c ∧ c.buf = b ∧ s.completed.length ≤ c.number

section Parts

/-- The disk is given a command for the buffer. -/
theorem idestart_spec (panics : ¬ (s.buf b).blockno < FSSIZE → allowed "incorrect blockno") :
    Spec allowed (idestart (some b)) s fun _ s' => ∃ c disk, c.buf = b ∧
      s' = { s with started := s.started ++ [c], disk := disk } := by
  refine Spec.bind_get ?_
  split
  · rename_i large
    exact Spec.panic (panics (Nat.not_lt.mpr large))
  · refine Spec.bind_modify ?_
    refine Spec.when (fun _ => Spec.modify ⟨_, _, rfl, rfl⟩) fun _ => ⟨_, _, rfl, rfl⟩

theorem append_spec (chain : Chained s.qnext s.idequeue q) (fresh : b ∉ q) :
    Spec allowed (append b) s fun _ s' => ∃ head next, Chained next head (q ++ [b]) ∧
      s' = { s with idequeue := head, qnext := next, queued := s.queued ++ [b] } := by
  refine Spec.bind_modify ?_
  refine Spec.bind_get ?_
  have still : Chained (Function.update s.qnext b none) s.idequeue q := by
    refine chain.congr fun a member => Function.update_of_ne ?_ _ _
    exact fun same => fresh (same ▸ member)
  have short : q.length < NBUF + 1 := by
    have bound := still.nodup.length_le_card
    rw [Fintype.card_fin] at bound
    omega
  have place : lastPlace (Function.update s.qnext b none) s.idequeue (NBUF + 1) none =
    some q.getLast? := by
    rw [still.lastPlace_eq rfl short, Option.or_none]
  rw [place]
  refine Spec.modify ⟨_, _, ?_, rfl⟩
  exact still.append fresh (Function.update_self _ _ _)

theorem await_spec (p : Fin NPROC) (c : Call) : Spec allowed (await p c) s fun _ s' =>
    s' = s.setCall p (if (s.buf c.buf).done = true then none else some { c with asleep := true }) :=
      by
  refine Spec.bind_get ?_
  grind [Spec.modify]

end Parts

section Steps

variable {c' : Call} {started : List Command} {disk : Nat → Nat → Data} {event : Event Data}

/-- A buffer has one caller at most. -/
theorem Sound.same_call (sound : Sound s q) {p' : Fin NPROC} (here : s.calls p = some c)
    (there : s.calls p' = some c') (same : c'.buf = c.buf) : p' = p ∧ c' = c := by
  have first := sound.owner p c here
  have second := sound.owner p' c' there
  grind

/-- A buffer that is locked by a process outside of `iderw` is not in the queue. -/
theorem Sound.fresh (sound : Sound s q) (idle : s.calls p = none)
    (locked : (s.buf b).lock = some p) : b ∉ q := by
  intro member
  obtain ⟨p', c, there, rfl, _⟩ := sound.caller b member
  have owner := sound.owner p' c there
  grind

/-- The request goes to the end of the queue, and its caller sleeps. -/
theorem Sound.enqueued {head : Option (Fin NBUF)} {next : Fin NBUF → Option (Fin NBUF)}
    (sound : Sound s q) (idle : s.calls p = none) (locked : (s.buf b).lock = some p)
    (pending : (s.buf b).done = false) (chain : Chained next head (q ++ [b]))
    (begun : started.map Command.buf = s.completed ++ (q ++ [b]).take 1) :
    Sound ({ s with
      idequeue := head, qnext := next, queued := s.queued ++ [b], started := started,
      disk := disk }.setCall p (some ⟨b, s.queued.length, true⟩)) (q ++ [b]) := by
  have length : s.completed.length ≤ s.queued.length := by
    rw [sound.queued, List.length_append]
    omega
  have cases : ∀ p' c, Function.update s.calls p (some ⟨b, s.queued.length, true⟩) p' = some c →
      p' = p ∧ c = ⟨b, s.queued.length, true⟩ ∨ p' ≠ p ∧ s.calls p' = some c := by
    grind
  refine ⟨chain, ?_, begun, sound.interrupts, fun p' c there => ?_, fun p' c there => ?_,
    fun p' c there => ?_, fun p' c there asleep => ?_, fun b' member => ?_⟩
  · change s.queued ++ [b] = s.completed ++ (q ++ [b])
    rw [sound.queued, List.append_assoc]
  · rcases cases p' c there with ⟨rfl, rfl⟩ | ⟨_, before⟩
    · exact locked
    · exact sound.owner p' c before
  · change (s.queued ++ [b])[c.number]? = some c.buf
    rcases cases p' c there with ⟨rfl, rfl⟩ | ⟨_, before⟩
    · exact List.getElem?_concat_length
    · have old := sound.number p' c before
      rw [List.getElem?_append_left (List.getElem?_eq_some_iff.mp old).1, old]
  · change (s.buf c.buf).done = true ↔ c.number < s.completed.length
    rcases cases p' c there with ⟨rfl, rfl⟩ | ⟨_, before⟩
    · grind
    · exact sound.waits p' c before
  · rcases cases p' c there with ⟨rfl, rfl⟩ | ⟨_, before⟩
    · exact length
    · exact sound.awake p' c before asleep
  · rcases List.mem_append.mp member with before | last
    · obtain ⟨p', c, there, same, later⟩ := sound.caller b' before
      have other : p' ≠ p := by grind
      exact ⟨p', c, (Function.update_of_ne other _ _).trans there, same, later⟩
    · exact ⟨p, _, Function.update_self _ _ _, (List.mem_singleton.mp last).symm, length⟩

/-- A call of `iderw`, up to its sleep. -/
theorem iderw_spec (sound : Sound s q) (idle : s.calls p = none)
    (unlocked : (s.buf b).lock ≠ some p → allowed "iderw: buf not locked")
    (nothing : (s.buf b).done = true → allowed "iderw: nothing to do")
    (absent : (s.buf b).dev ≠ 0 ∧ s.havedisk1 = false → allowed "iderw: ide disk 1 not present")
    (large : ¬ (s.buf b).blockno < FSSIZE → allowed "incorrect blockno") :
    Spec allowed (iderw p b) s fun _ s' => Sound s' (q ++ [b]) ∧ s'.completed = s.completed ∧
      s'.calls = Function.update s.calls p (some ⟨b, s.queued.length, true⟩) := by
  refine Spec.bind_get ?_
  split
  · rename_i other
    exact Spec.panic (unlocked other)
  rename_i locked
  have locked := Decidable.not_not.mp locked
  split
  · rename_i done
    exact Spec.panic (nothing done)
  rename_i pending
  have pending := Bool.eq_false_iff.mpr pending
  split
  · rename_i missing
    exact Spec.panic (absent missing)
  have fresh := sound.fresh idle locked
  refine Spec.bind (append_spec sound.chain fresh) ?_
  rintro _ s1 ⟨head, next, chain, rfl⟩
  refine Spec.bind_get ?_
  have begin : Spec allowed (when (head = some b) (idestart (some b)))
      { s with idequeue := head, qnext := next, queued := s.queued ++ [b] } fun _ s' =>
        ∃ started disk, started.map Command.buf = s.completed ++ (q ++ [b]).take 1 ∧ s' = { s with
          idequeue := head, qnext := next, queued := s.queued ++ [b], started := started,
          disk := disk } := by
    have before := sound.started
    have first := chain.head_eq
    refine Spec.when (fun alone => ?_) fun behind => ?_
    · have empty : q = [] := by
        cases q with
        | nil => rfl
        | cons a rest =>
          grind
      refine Spec.mono (idestart_spec large) ?_
      rintro _ s' ⟨c, disk, mine, rfl⟩
      refine ⟨s.started ++ [c], disk, ?_, rfl⟩
      rw [empty] at before ⊢
      rw [List.map_append, before, List.map_singleton, mine, List.take_nil, List.append_nil]
      rfl
    · refine ⟨s.started, s.disk, ?_, rfl⟩
      cases q with
      | nil => exact absurd first behind
      | cons a rest => exact before
  refine Spec.bind begin ?_
  rintro _ s2 ⟨started, disk, begun, rfl⟩
  refine Spec.mono (await_spec p _) ?_
  rintro _ s' rfl
  rw [pending, if_neg Bool.false_ne_true]
  exact ⟨sound.enqueued idle locked pending chain begun, rfl, rfl⟩

theorem wakeup_calls (woken : (s.wakeup b).calls p = some c') : ∃ c, s.calls p = some c ∧
    c'.buf = c.buf ∧ c'.number = c.number ∧ (c'.asleep = true → c.asleep = true ∧ c.buf ≠ b) := by
  obtain ⟨c, there, rfl⟩ := Option.map_eq_some_iff.mp woken
  refine ⟨c, there, ?_⟩
  split
  · exact ⟨rfl, rfl, nofun⟩
  · grind

/-- An interrupt up to the start of the next request. -/
def State.complete (s : State Data) (b : Fin NBUF) (buf : Buf Data) : State Data :=
  { s.setBuf b buf with
    idequeue := s.qnext b
    completed := s.completed ++ [b]
    interrupts := s.interrupts + 1 }.wakeup b

/-- The head of the queue is completed, and its caller is awake. -/
theorem Sound.dequeued {buf : Buf Data} (sound : Sound s (b :: rest))
    (begun : started.map Command.buf = s.completed ++ [b] ++ rest.take 1)
    (lock : buf.lock = (s.buf b).lock) (done : buf.done = true) :
    Sound { s.complete b buf with started := started, disk := disk } rest := by
  have once := sound.chain.nodup
  obtain ⟨p, c, mine, same, later⟩ := sound.caller b List.mem_cons_self
  have turn : s.queued[s.completed.length]? = some b := by
    rw [sound.queued, List.getElem?_append_right (Nat.le_refl _), Nat.sub_self]
    rfl
  have length : (s.completed ++ [b]).length = s.completed.length + 1 := by
    rw [List.length_append, List.length_singleton]
  -- Only the head's caller has the number of the head.
  have numbered : ∀ p' c', s.calls p' = some c' → (c'.buf = b ↔ c'.number = s.completed.length) :=
    by
    intro p' c' there
    have number := sound.number p' c' there
    constructor
    · intro head
      obtain ⟨_, rfl⟩ := sound.same_call mine there (head.trans same.symm)
      rw [sound.queued, List.getElem?_append_right later, head] at number
      have inside := (List.getElem?_eq_some_iff.mp number).1
      have first : c'.number - s.completed.length = 0 := (List.getElem?_inj inside once).mp
        (number.trans rfl)
      omega
    · grind
  refine ⟨sound.chain.tail, ?_, begun, ?_, fun p' c' woken => ?_, fun p' c' woken => ?_,
    fun p' c' woken => ?_, fun p' c' woken asleep => ?_, fun b' member => ?_⟩
  · change s.queued = s.completed ++ [b] ++ rest
    rw [sound.queued, List.append_assoc]
    rfl
  · change s.interrupts + 1 = (s.completed ++ [b]).length
    rw [sound.interrupts, length]
  · obtain ⟨c, there, sameBuf, _, _⟩ := wakeup_calls woken
    change (Function.update s.buf b buf c'.buf).lock = some p'
    rw [sameBuf]
    by_cases head : c.buf = b
    · rw [head, Function.update_self, lock, ← head]
      exact sound.owner p' c there
    · rw [Function.update_of_ne head]
      exact sound.owner p' c there
  · obtain ⟨c, there, sameBuf, sameNumber, _⟩ := wakeup_calls woken
    rw [sameBuf, sameNumber]
    exact sound.number p' c there
  · obtain ⟨c, there, sameBuf, sameNumber, _⟩ := wakeup_calls woken
    change (Function.update s.buf b buf c'.buf).done = true ↔
      c'.number < (s.completed ++ [b]).length
    have numbered := numbered p' c there
    rw [sameBuf, sameNumber, length]
    by_cases head : c.buf = b
    · grind
    · rw [Function.update_of_ne head, sound.waits p' c there]
      omega
  · obtain ⟨c, there, _, sameNumber, slept⟩ := wakeup_calls woken
    obtain ⟨asleep, other⟩ := slept asleep
    have apart : c.number ≠ s.completed.length := fun equal =>
      other ((numbered p' c there).mpr equal)
    have behind := sound.awake p' c there asleep
    change (s.completed ++ [b]).length ≤ c'.number
    omega
  · obtain ⟨p', c', there, sameBuf, behind⟩ := sound.caller b' (List.mem_cons_of_mem b member)
    have other : c'.buf ≠ b := by grind
    have apart : c'.number ≠ s.completed.length := fun equal =>
      other ((numbered p' c' there).mpr equal)
    refine ⟨p', c', ?_, sameBuf, ?_⟩
    · change (s.calls p').map _ = some c'
      rw [there, Option.map_some, if_neg other]
    · change (s.completed ++ [b]).length ≤ c'.number
      omega

theorem setBuf_twice (s : State Data) (b : Fin NBUF) (buf : Buf Data)
    (change : Buf Data → Buf Data) :
    (s.setBuf b buf).setBuf b (change ((s.setBuf b buf).buf b)) = s.setBuf b (change buf) := by
  simp only [State.setBuf, Function.update_self, Function.update_idem]

theorem insl_eq (b : Fin NBUF) (s : State Data) :
    ∃ buf, buf.lock = (s.buf b).lock ∧ insl b s = s.setBuf b buf := by
  unfold insl
  split
  · exact ⟨s.buf b, rfl, by rw [State.setBuf, Function.update_eq_self]⟩
  · rename_i c _
    exact ⟨{ s.buf b with data := s.disk c.drive c.sector }, rfl, rfl⟩

/-- The interrupt for the head's request. -/
theorem ideintr_spec (fine : Bool) (sound : Sound s (b :: rest))
    (large : ∀ next, rest.head? = some next → ¬ (s.buf next).blockno < FSSIZE →
      allowed "incorrect blockno") :
    Spec allowed (ideintr fine) { s with interrupts := s.interrupts + 1 } fun _ s' =>
      Sound s' rest ∧
      s'.calls = (s.wakeup b).calls := by
  have head : s.idequeue = some b := sound.chain.head_eq
  have begun : s.started.map Command.buf = s.completed ++ [b] := sound.started
  have once := sound.chain.nodup
  refine Spec.bind_get ?_
  rw [head]
  refine Spec.bind_modify ?_
  have read : Spec allowed (when ((s.buf b).dirty = false ∧ fine = true) (Exec.modify (insl b)))
      { s with interrupts := s.interrupts + 1, idequeue := s.qnext b } fun _ s' => ∃ buf,
      buf.lock = (s.buf b).lock ∧
        s' = { s with interrupts := s.interrupts + 1, idequeue := s.qnext b }.setBuf b buf := by
    refine Spec.when (fun _ => Spec.modify ?_) fun _ => ⟨s.buf b, rfl, ?_⟩
    · exact insl_eq b { s with interrupts := s.interrupts + 1, idequeue := s.qnext b }
    · simp only [State.setBuf, Function.update_eq_self]
  refine Spec.bind read ?_
  rintro _ s2 ⟨buf, lock, rfl⟩
  refine Spec.bind_modify ?_
  rw [setBuf_twice _ _ _ fun buf => { buf with valid := true, dirty := false }]
  refine Spec.bind_modify ?_
  refine Spec.bind_modify ?_
  generalize new : ({ buf with valid := true, dirty := false } : Buf Data) = buf'
  have lock' : buf'.lock = (s.buf b).lock := by rw [← new, ← lock]
  have done : buf'.done = true := by
    rw [← new]
    rfl
  refine Spec.bind_get ?_
  have follows : s.qnext b = rest.head? := sound.chain.tail.head_eq
  change Spec allowed (when (s.qnext b ≠ none) (idestart (s.qnext b))) (s.complete b buf') _
  rw [follows]
  cases rest with
  | nil =>
    have begun' : s.started.map Command.buf = s.completed ++ [b] ++ List.take 1 [] := by
      rw [begun, List.take_nil, List.append_nil]
    exact ⟨sound.dequeued begun' lock' done, rfl⟩
  | cons a rest =>
    have other : a ≠ b := fun same => (List.nodup_cons.mp once).1 (same ▸ List.mem_cons_self)
    have block : ((s.complete b buf').buf a).blockno = (s.buf a).blockno := by
      change (Function.update s.buf b buf' a).blockno = _
      rw [Function.update_of_ne other]
    refine Spec.mono (idestart_spec ?_) ?_
    · rw [block]
      exact large a rfl
    · rintro _ s' ⟨c, disk, mine, rfl⟩
      refine ⟨sound.dequeued ?_ lock' done, rfl⟩
      change (s.started ++ [c]).map Command.buf = s.completed ++ [b] ++ [a]
      rw [List.map_append, begun, List.map_singleton, mine]

/-- Processes may fall asleep or be woken, and may return if their request was completed. -/
theorem Sound.recalled {calls : Fin NPROC → Option Call} (sound : Sound s q)
    (old : ∀ p c', calls p = some c' → ∃ c, s.calls p = some c ∧ c'.buf = c.buf ∧
      c'.number = c.number ∧ (c'.asleep = true → s.completed.length ≤ c.number))
    (kept : ∀ p c, s.calls p = some c → s.completed.length ≤ c.number → ∃ c', calls p = some c' ∧
      c'.buf = c.buf ∧ c'.number = c.number) :
    Sound { s with calls := calls } q := by
  refine ⟨sound.chain, sound.queued, sound.started, sound.interrupts, fun p c' there => ?_,
    fun p c' there => ?_, fun p c' there => ?_, fun p c' there asleep => ?_, fun b member => ?_⟩
  · obtain ⟨c, before, buf, _, _⟩ := old p c' there
    rw [buf]
    exact sound.owner p c before
  · obtain ⟨c, before, buf, number, _⟩ := old p c' there
    rw [buf, number]
    exact sound.number p c before
  · obtain ⟨c, before, buf, number, _⟩ := old p c' there
    rw [buf, number]
    exact sound.waits p c before
  · obtain ⟨c, _, _, number, sleeps⟩ := old p c' there
    rw [number]
    exact sleeps asleep
  · obtain ⟨p, c, before, same, behind⟩ := sound.caller b member
    obtain ⟨c', there, buf, number⟩ := kept p c before behind
    exact ⟨p, c', there, buf.trans same, number ▸ behind⟩

/-- The process sleeps on, or its request was completed and it returns. -/
theorem Sound.awaited (sound : Sound s q) (here : s.calls p = some c) :
    Sound (s.setCall p (if (s.buf c.buf).done = true then none else some { c with asleep := true }))
      q := by
  have waits := sound.waits p c here
  refine sound.recalled (fun p' c' there => ?_) fun p' c' before behind => ?_
  · by_cases same : p' = p
    · grind
    · grind [Function.update_of_ne, awake]
  · by_cases same : p' = p
    · rw [same, here, Option.some.injEq] at before
      subst before
      have pending : ¬ (s.buf c.buf).done = true := by
        rw [waits]
        exact Nat.not_lt.mpr behind
      rw [same, Function.update_self, if_neg pending]
      exact ⟨_, rfl, rfl, rfl⟩
    · grind

theorem Sound.killed (sound : Sound s q) (p : Fin NPROC) :
    Sound (s.setCall p ((s.calls p).map fun c => { c with asleep := false })) q := by
  refine sound.recalled (fun p' c' there => ?_) fun p' c before _ => ?_
  · by_cases same : p' = p
    · rw [same, Function.update_self] at there
      obtain ⟨c, before, rfl⟩ := Option.map_eq_some_iff.mp there
      exact ⟨c, same ▸ before, rfl, rfl, nofun⟩
    · grind [Function.update_of_ne, awake]
  · grind

theorem Sound.touched (sound : Sound s q) (apart : ∀ p, (s.calls p).map Call.buf ≠ some b)
    (buf : Buf Data) :
    Sound (s.setBuf b buf) q := by
  have same : ∀ p c, s.calls p = some c → Function.update s.buf b buf c.buf = s.buf c.buf := by
    intro p c there
    have other := apart p
    rw [there, Option.map_some, ne_eq, Option.some.injEq] at other
    exact Function.update_of_ne other _ _
  refine ⟨sound.chain, sound.queued, sound.started, sound.interrupts, fun p c there => ?_,
    sound.number, fun p c there => ?_, sound.awake, sound.caller⟩
  · change (Function.update s.buf b buf c.buf).lock = some p
    rw [same p c there]
    exact sound.owner p c there
  · change (Function.update s.buf b buf c.buf).done = true ↔ _
    rw [same p c there]
    exact sound.waits p c there

/-- A raised interrupt is for the head of the queue. -/
theorem Sound.raised (sound : Sound s q) (raised : s.interrupts < s.started.length) :
    ∃ b rest, q = b :: rest := by
  have length := congrArg List.length sound.started
  rw [List.length_map, List.length_append] at length
  have count := sound.interrupts
  cases q with
  | nil =>
    grind
  | cons b rest => exact ⟨b, rest, rfl⟩

theorem step_sound (sound : Sound s q) (taken : step s event = some s') : ∃ q', Sound s' q' := by
  cases event with
  | call p b =>
    rw [step] at taken
    split at taken
    · rename_i idle
      obtain ⟨⟨_, after⟩, returned, rfl⟩ := Option.map_eq_some_iff.mp taken
      rw [Outcome.toOption_eq_some] at returned
      have spec := @iderw_spec Data Stops.all s q b p sound idle (fun _ => trivial)
        (fun _ => trivial) (fun _ => trivial) fun _ => trivial
      exact ⟨q ++ [b], (spec.ok returned).1⟩
    · cases taken
  | wake p =>
    rw [step] at taken
    split at taken
    · rename_i c here
      split at taken
      · obtain ⟨⟨_, after⟩, returned, rfl⟩ := Option.map_eq_some_iff.mp taken
        rw [Outcome.toOption_eq_some] at returned
        have after := (@await_spec Data Stops.all s p c).ok returned
        rw [after]
        exact ⟨q, sound.awaited here⟩
      · cases taken
    · cases taken
  | kill p =>
    cases taken
    exact ⟨q, sound.killed p⟩
  | intr fine =>
    rw [step] at taken
    split at taken
    · rename_i raised
      obtain ⟨b, rest, rfl⟩ := sound.raised raised
      obtain ⟨⟨_, after⟩, returned, rfl⟩ := Option.map_eq_some_iff.mp taken
      rw [Outcome.toOption_eq_some] at returned
      have spec := @ideintr_spec Data Stops.all s rest b fine sound fun _ _ _ => trivial
      exact ⟨rest, (spec.ok returned).1⟩
    · cases taken
  | touch b buf =>
    rw [step] at taken
    split at taken
    · rename_i apart
      cases taken
      exact ⟨q, sound.touched apart buf⟩
    · cases taken

/-- A process leaves `iderw` when its own request was completed. -/
theorem step_returns (sound : Sound s q) (taken : step s event = some s')
    (here : s.calls p = some c) (gone : s'.calls p = none) :
    c.number < s.completed.length ∧ (s'.buf c.buf).done = true := by
  cases event with
  | call p' b =>
    rw [step] at taken
    split at taken
    · rename_i idle
      obtain ⟨⟨_, after⟩, returned, rfl⟩ := Option.map_eq_some_iff.mp taken
      rw [Outcome.toOption_eq_some] at returned
      have spec := @iderw_spec Data Stops.all s q b p' sound idle (fun _ => trivial)
        (fun _ => trivial) (fun _ => trivial) fun _ => trivial
      have calls : after.calls = _ := (spec.ok returned).2.2
      have other : p ≠ p' := by grind
      rw [calls, Function.update_of_ne other, here] at gone
      cases gone
    · cases taken
  | wake p' =>
    rw [step] at taken
    split at taken
    · rename_i c' there
      split at taken
      · obtain ⟨⟨_, after⟩, returned, rfl⟩ := Option.map_eq_some_iff.mp taken
        rw [Outcome.toOption_eq_some] at returned
        have after := (@await_spec Data Stops.all s p' c').ok returned
        subst after
        by_cases same : p = p'
        · rw [← same, here, Option.some.injEq] at there
          subst there
          change Function.update s.calls p' _ p = none at gone
          rw [← same, Function.update_self] at gone
          split at gone
          · rename_i done
            exact ⟨(sound.waits p c here).mp done, done⟩
          · cases gone
        · change Function.update s.calls p' _ p = none at gone
          grind
      · cases taken
    · cases taken
  | kill p' =>
    cases taken
    change Function.update s.calls p' _ p = none at gone
    grind
  | intr fine =>
    rw [step] at taken
    split at taken
    · rename_i raised
      obtain ⟨b, rest, rfl⟩ := sound.raised raised
      obtain ⟨⟨_, after⟩, returned, rfl⟩ := Option.map_eq_some_iff.mp taken
      rw [Outcome.toOption_eq_some] at returned
      have spec := @ideintr_spec Data Stops.all s rest b fine sound fun _ _ _ => trivial
      have calls : after.calls = _ := (spec.ok returned).2
      rw [calls] at gone
      change (s.calls p).map _ = none at gone
      rw [here] at gone
      cases gone
    · cases taken
  | touch b buf =>
    rw [step] at taken
    split at taken
    · cases taken
      change s.calls p = none at gone
      rw [here] at gone
      cases gone
    · cases taken

end Steps

section Runs

/-- The order of the requests: `q` is the queue. -/
structure Ordered (s : State Data) (q : List (Fin NBUF)) : Prop where
  queue : Chained s.qnext s.idequeue q
  queued : s.queued = s.completed ++ q
  started : s.started.map Command.buf = s.completed ++ s.idequeue.toList

variable {buf : Fin NBUF → Buf Data} {qnext : Fin NBUF → Option (Fin NBUF)} {havedisk1 : Bool}
  {disk : Nat → Nat → Data} {events : List (Event Data)}

theorem Sound.ordered (sound : Sound s q) : Ordered s q := by
  refine ⟨sound.chain, sound.queued, ?_⟩
  rw [sound.started, sound.chain.head_eq]
  cases q with
  | nil => rfl
  | cons b rest => rfl

/-- In every run the requests are started and completed in the order in which they were queued,
the disk works on the head of the queue and nothing else, and `iderw` returns when its own request
is completed and the buffer valid and clean. Nothing stops a call for a proper block, or an
interrupt. -/
theorem disk_queue (reached : run step (initial buf qnext havedisk1 disk) events = some s) :
    (∃ q, Ordered s q) ∧
    (∀ event s' p c, step s event = some s' → s.calls p = some c → s'.calls p = none →
      s.queued[c.number]? = some c.buf ∧ s.completed[c.number]? = some c.buf ∧
        (s'.buf c.buf).valid = true ∧ (s'.buf c.buf).dirty = false) ∧
    (∀ p b, s.calls p = none → (s.buf b).lock = some p → (s.buf b).done = false →
      (s.buf b).dev = 0 ∨ s.havedisk1 = true → (s.buf b).blockno < FSSIZE →
      ∃ s', step s (.call p b) = some s' ∧ s'.calls p = some ⟨b, s.queued.length, true⟩) ∧
    ∀ fine, s.interrupts < s.started.length →
      (∀ b ∈ s.queued.drop s.completed.length, (s.buf b).blockno < FSSIZE) →
      ∃ s', step s (.intr fine) = some s' := by
  have start : ∃ q, Sound (initial buf qnext havedisk1 disk) q :=
    ⟨[], Chained.nil, rfl, rfl, rfl, nofun, nofun, nofun, nofun, nofun⟩
  have preserves : ∀ (s : State Data) (event : Event Data) next, True → (∃ q, Sound s q) →
      step s event = some next → ∃ q, Sound next q := by
    rintro s event next _ ⟨q, sound⟩ taken
    exact step_sound sound taken
  obtain ⟨q, sound⟩ : ∃ q, Sound s q := run_keeps preserves (fun _ _ => trivial) reached start
  refine ⟨⟨q, sound.ordered⟩, fun event s' p c taken here gone => ?_,
    fun p b idle locked pending present block => ?_, fun fine raised blocks => ?_⟩
  · obtain ⟨behind, done⟩ := step_returns sound taken here gone
    have number := sound.number p c here
    rw [Buf.done, Bool.and_eq_true, Bool.not_eq_true_eq_eq_false] at done
    refine ⟨number, ?_, done⟩
    rw [sound.queued, List.getElem?_append_left behind] at number
    exact number
  · have spec := @iderw_spec Data Stops.nothing s q b p sound idle (fun other => other locked)
      (fun done => Bool.false_ne_true (pending.symm.trans done))
      (fun missing => present.elim missing.1 fun there =>
      Bool.false_ne_true (missing.2.symm.trans there)) fun large => large block
    obtain ⟨_, s', returned, _, _, calls⟩ := spec.total
    refine ⟨s', ?_, ?_⟩
    · rw [step, if_pos idle, returned]
      rfl
    · rw [calls, Function.update_self]
  · obtain ⟨b, rest, rfl⟩ := sound.raised raised
    rw [sound.queued, List.drop_left] at blocks
    have spec := @ideintr_spec Data Stops.nothing s rest b fine sound fun next found large =>
      large (blocks next (List.mem_cons_of_mem b (List.mem_of_mem_head? found)))
    obtain ⟨_, s', returned, _⟩ := spec.total
    refine ⟨s', ?_⟩
    rw [step, if_pos raised, returned]
    rfl

/-- Processes 0 and 1 read blocks 7 and 9; the second interrupt is still to come. -/
def twoReaders : List (Event Unit) :=
  [.touch 0 ⟨false, false, 0, 7, some 0, ()⟩, .touch 1 ⟨false, false, 0, 9, some 1, ()⟩,
    .call 0 0, .call 1 1, .intr true]

theorem disk_queue_twoReaders :
    ∃ s, run step (initial (fun _ => ⟨false, false, 0, 0, none, ()⟩) (fun _ => none) false
      fun _ _ => ()) twoReaders = some s ∧ s.queued = [0, 1] ∧ s.completed = [0] ∧
        (∃ q, Ordered s q) ∧
      ∃ s', step s (.intr true) = some s' := by
  have returns : (run step (initial (fun _ => ⟨false, false, 0, 0, none, ()⟩) (fun _ => none) false
      fun _ _ => ()) twoReaders).map (fun s => decide (s.queued = [0, 1] ∧ s.completed = [0] ∧
        s.interrupts < s.started.length ∧ ∀ b ∈ s.queued.drop s.completed.length,
      (s.buf b).blockno < FSSIZE)) = some true := by decide +kernel
  obtain ⟨s, reached, facts⟩ := Option.map_eq_some_iff.mp returns
  obtain ⟨queued, completed, raised, blocks⟩ := of_decide_eq_true facts
  obtain ⟨ordered, _, _, handles⟩ := disk_queue reached
  exact ⟨s, reached, queued, completed, ordered, handles true raised blocks⟩

end Runs

end Xv6.Ide
