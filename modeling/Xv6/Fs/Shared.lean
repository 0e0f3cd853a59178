import Xv6.Fs.System
import Xv6.Lib.Merge

/- Processes that write through one open file. filewrite drops the lock of the inode between
two rounds, so that the rounds of several calls can come in any order; the offset is in the
open file and moves under the lock. -/
namespace Xv6.Fs

open Exec

/-- The calls of `filewrite` that are under way, with the bytes that they still have to write,
and the chunks that were written with their writers, in the order of the lock. -/
structure Writers where
  state : State
  left : Fin NPROC → Option (List UInt8)
  written : List (Fin NPROC × List UInt8)

/-- A process calls `filewrite`, goes through its loop once, or returns from it. -/
inductive Turn where
  | call (p : Fin NPROC) (src : List UInt8)
  | round (p : Fin NPROC)
  | leave (p : Fin NPROC)

/-- A round is taken only if its `writei` succeeds. -/
def turnStep (f : Fin NFILE) (t : Writers) : Turn → Option Writers
  | .call p src =>
    if t.left p = none ∧ (t.state.ftable f).writable = true ∧ (t.state.ftable f).type = .inode then
      some { t with left := Function.update t.left p (some src) }
    else none
  | .round p => (t.left p).bind fun src =>
    if src.length = 0 then none
    else match filewriteRound p f (nextChunk src) t.state with
      | .ok (r, s) =>
        if r = Int.ofNat (nextChunk src).length then
          some ⟨s, Function.update t.left p (some (src.drop (nextChunk src).length)),
            t.written ++ [(p, nextChunk src)]⟩
        else none
      | _ => none
  | .leave p =>
    if t.left p = some [] then some { t with left := Function.update t.left p none } else none

/-- The calls that were made. -/
def callsMade (turns : List Turn) : List (Fin NPROC × List UInt8) :=
  turns.filterMap fun
    | .call p src => some (p, src)
    | _ => none

section Steps

variable {f : Fin NFILE} {t t' : Writers} {turn : Turn} {turns : List Turn}

/-- What a turn does to the state, and to the bytes that are left. -/
theorem turnStep_cases (taken : turnStep f t turn = some t') :
    (∃ p src, turn = .call p src ∧ t.left p = none ∧
      t' = { t with left := Function.update t.left p (some src) }) ∨
    (∃ p src s, turn = .round p ∧ t.left p = some src ∧ src.length ≠ 0 ∧
      filewriteRound p f (nextChunk src) t.state = .ok (Int.ofNat (nextChunk src).length, s) ∧
      t' = ⟨s, Function.update t.left p (some (src.drop (nextChunk src).length)),
        t.written ++ [(p, nextChunk src)]⟩) ∨
    ∃ p, turn = .leave p ∧ t.left p = some [] ∧
      t' = { t with left := Function.update t.left p none } := by
  cases turn with
  | call p src =>
    grind [turnStep]
  | round p =>
    obtain ⟨src, busy, taken⟩ := Option.bind_eq_some_iff.mp taken
    split at taken
    · cases taken
    rename_i some
    split at taken
    · grind
    · cases taken
  | leave p =>
    grind [turnStep]

/-- The bytes that process `p` has written or has still to write. -/
def Writers.due (t : Writers) (p : Fin NPROC) : List UInt8 :=
  Merge.part p t.written ++ (t.left p).getD []

/-- Only a call adds to them. -/
theorem turnStep_due (taken : turnStep f t turn = some t') (q : Fin NPROC) :
    t'.due q = t.due q ++ Merge.part q (callsMade [turn]) := by
  unfold Writers.due
  obtain ⟨p, src, rfl, free, rfl⟩ | ⟨p, src, s, rfl, busy, _, _, rfl⟩ | ⟨p, rfl, done, rfl⟩ :=
    turnStep_cases taken
  · change _ = _ ++ Merge.part q [(p, src)]
    dsimp only
    rw [Merge.part_singleton]
    grind
  · dsimp only
    rw [Merge.part_append, Merge.part_singleton]
    change _ = _ ++ []
    by_cases own : q = p
    · grind [Function.update_self, List.append_assoc, nextChunk_append]
    · rw [if_neg (Ne.symm own), Function.update_of_ne own, List.append_nil, List.append_nil]
  · change _ = _ ++ []
    grind

theorem run_due (ran : Runs.run (turnStep f) t turns = some t') (q : Fin NPROC) :
    t'.due q = t.due q ++ Merge.part q (callsMade turns) := by
  induction turns generalizing t with
  | nil =>
    cases ran
    exact (List.append_nil _).symm
  | cons turn rest ih =>
    obtain ⟨next, taken, remaining⟩ := Runs.run_cons_some.mp ran
    have split : callsMade (turn :: rest) = callsMade [turn] ++ callsMade rest := by
      rw [callsMade, ← List.singleton_append, List.filterMap_append]
      rfl
    rw [ih remaining, turnStep_due taken, split, Merge.part_append, List.append_assoc]

end Steps

section Alone

variable {p : Fin NPROC} {f : Fin NFILE} {t : Writers} {src : List UInt8} {s' : State}

/-- The loop of `filewrite` is made of rounds. -/
theorem filewriteLoop_rounds {fuel : Nat} (enough : src.length ≤ fuel) (busy : t.left p = some src)
    (looped : filewriteLoop p f fuel src t.state = .ok (0, s')) :
    ∃ count written, Runs.run (turnStep f) t (List.replicate count (.round p)) =
      some ⟨s', Function.update t.left p (some []), written⟩ := by
  have still {t : Writers} (done : t.left p = some []) :
    t = ⟨t.state, Function.update t.left p (some []), t.written⟩ := by
    rw [← done, Function.update_eq_self]
  induction fuel generalizing t src with
  | zero =>
    have none : src = [] := List.length_eq_zero_iff.mp (Nat.le_zero.mp enough)
    subst none
    cases looped
    exact ⟨0, t.written, congrArg some (still busy)⟩
  | succ fuel ih =>
    rw [filewriteLoop_succ] at looped
    split at looped
    · rename_i none
      have none : src = [] := List.length_eq_zero_iff.mp none
      subst none
      cases looped
      exact ⟨0, t.written, congrArg some (still busy)⟩
    · rename_i nonempty
      obtain ⟨r, s1, round, looped⟩ := bind_eq_ok.mp looped
      split at looped
      · have stopped : src.length = 0 := congrArg Prod.fst (Outcome.ok.inj looped)
        exact (nonempty stopped).elim
      split at looped
      · cases looped
      rename_i all
      have full : r = Int.ofNat (nextChunk src).length := Decidable.not_not.mp all
      have shorter : (src.drop (nextChunk src).length).length ≤ fuel := by
        rw [List.length_drop, nextChunk_length]
        omega
      obtain ⟨count, written, ran⟩ := @ih ⟨s1, Function.update t.left p
        (some (src.drop (nextChunk src).length)),
        t.written ++ [(p, nextChunk src)]⟩ _ shorter (Function.update_self _ _ _) looped
      rw [Function.update_idem] at ran
      refine ⟨count + 1, written, Runs.run_cons_some.mpr ⟨_, ?_, ran⟩⟩
      grind [turnStep]

/-- A call of `filewrite` that nobody interrupts, and that writes all its bytes, is one of the
runs of turns. -/
theorem filewrite_turns (idle : t.left p = none) (inode : (t.state.ftable f).type = .inode)
    (writable : (t.state.ftable f).writable = true)
    (returned : filewrite p f src t.state = .ok (Int.ofNat src.length, s')) :
    ∃ turns written, callsMade turns = [(p, src)] ∧ Runs.run (turnStep f) t turns =
      some ⟨s', t.left, written⟩ := by
  obtain ⟨_, _, read, returned⟩ := bind_eq_ok.mp returned
  cases read
  rw [writable, inode, if_neg Bool.noConfusion] at returned
  obtain ⟨left, s1, looped, returned⟩ := bind_eq_ok.mp returned
  obtain ⟨value, rfl⟩ := Prod.mk.inj (Outcome.ok.inj returned)
  have none : left = 0 := by grind
  rw [none] at looped
  have entered : turnStep f t (.call p src) =
    some { t with left := Function.update t.left p (some src) } :=
    if_pos ⟨idle, writable, inode⟩
  obtain ⟨count, written, rounds⟩ := @filewriteLoop_rounds p
    f { t with left := Function.update t.left p (some src) }
    src s1 _ (Nat.le_refl _) (Function.update_self _ _ _) looped
  rw [Function.update_idem] at rounds
  refine ⟨[.call p src] ++ List.replicate count (.round p) ++ [.leave p], written, ?_, ?_⟩
  · have silent : callsMade (List.replicate count (.round p)) = [] :=
      List.filterMap_eq_nil_iff.mpr fun turn member => by rw [List.eq_of_mem_replicate member]
    grind [callsMade]
  · have leaves : turnStep f ⟨s1, Function.update t.left p (some []), written⟩ (.leave p) =
        some ⟨s1, t.left, written⟩ := by
      rw [turnStep, if_pos (Function.update_self _ _ _)]
      rw [Function.update_idem, ← idle, Function.update_eq_self]
    grind [Runs.run_append, Runs.run, Runs.run_nil]

end Alone

section Progress

variable {s : State} {f : Fin NFILE} {X : Nat} {t t' : Writers} {turn : Turn}

/-- What was written stands behind the old content, and the offset of the file behind it. -/
structure Progress (s : State) (f : Fin NFILE) (X : Nat) (t : Writers) : Prop where
  base : Base t.state
  file : t.state.ftable f = { s.ftable f with off :=
    (s.ftable f).off + (Merge.whole t.written).length }
  inum : (t.state.icache (s.ftable f).ip).inum = X
  type : t.state.world.type X = .file
  size : (t.state.dinodes X).size = (s.ftable f).off + (Merge.whole t.written).length
  data : t.state.world.data X = s.world.data X ++ Merge.whole t.written
  chunks : ∀ chunk ∈ t.written, 0 < chunk.2.length ∧ chunk.2.length ≤ 1536

theorem turnStep_progress (inode : (s.ftable f).type = .inode)
    (writable : (s.ftable f).writable = true) (progress : Progress s f X t)
    (taken : turnStep f t turn = some t') : Progress s f X t' := by
  obtain ⟨p, src, rfl, free, rfl⟩ | ⟨p, src, s', rfl, busy, some, returned, rfl⟩ | ⟨p, rfl,
    done, rfl⟩ :=
    turnStep_cases taken
  · exact ⟨progress.base, progress.file, progress.inum, progress.type, progress.size, progress.data,
      progress.chunks⟩
  · have file := progress.file
    have lenient : Lenient Stops.all := fun _ _ => trivial
    have spec := @filewriteRound_step Stops.all p t.state f X lenient progress.base
      (by rw [file]; exact inode)
      (by rw [file]; exact writable) (by rw [file]; exact progress.inum) (nextChunk src)
    obtain ⟨base, writes, _, extends_⟩ := spec.ok returned
    have more := extends_ progress.type (by rw [file, progress.size]) rfl
    have whole : Merge.whole (t.written ++ [(p, nextChunk src)]) = Merge.whole t.written ++
      nextChunk src := by
      rw [Merge.whole_append, Merge.whole_singleton]
    refine ⟨base, ?_, ?_, ?_, ?_, ?_, fun chunk member => ?_⟩
    · rw [more.file, file, whole, List.length_append, Nat.add_assoc]
    · have same := more.inum
      rw [file] at same
      exact same.trans progress.inum
    · exact (writes.type X).trans progress.type
    · rw [more.size, progress.size, whole, List.length_append, Nat.add_assoc]
    · rw [more.data, progress.data, whole, List.append_assoc]
    · rcases List.mem_append.mp member with old | new
      · exact progress.chunks chunk old
      · grind [List.mem_singleton, nextChunk_length]
  · exact ⟨progress.base, progress.file, progress.inum, progress.type, progress.size, progress.data,
      progress.chunks⟩

variable {im : Mkfs.Image} {files : List Mkfs.Source} {devsw : Int → Option Device}
  {calls : List (Fin NPROC × Call)} {turns : List Turn}

/-- In any state that a run on an image of mkfs reaches, let processes write through one open
file of a regular file that stands at its end, with their rounds in any order and all `writei`
successful. The file grows by the chunks in the order of the lock; each process has written the
bytes of its calls in their order, but for those of the call it is in; and when no call is under
way the offset has moved by the total of the lengths. -/
theorem shared_writes_append (made : Mkfs.mkfs files = some im) (few : files.length < NINODES - 1)
    (room : im.freeblock ≤ FSSIZE) (reached : runSystem im devsw calls = some s)
    (inode : (s.ftable f).type = .inode) (writable : (s.ftable f).writable = true)
    (inum : (s.icache (s.ftable f).ip).inum = X) (regular : (s.dinodes X).type = .file)
    (ends : (s.ftable f).off = (s.dinodes X).size)
    (ran : Runs.run (turnStep f) ⟨s, fun _ => none, []⟩ turns = some t) :
    t.state.world.data X = s.world.data X ++ Merge.whole t.written ∧
    (t.state.ftable f).off = (s.ftable f).off + (Merge.whole t.written).length ∧
    (∀ p, Merge.part p t.written ++ (t.left p).getD [] = Merge.part p (callsMade turns)) ∧
    (∀ chunk ∈ t.written, 0 < chunk.2.length ∧ chunk.2.length ≤ 1536) ∧ ((∀ p, t.left p = none) →
      (t.state.ftable f).off = (s.ftable f).off + ((callsMade turns).map fun call =>
        call.2.length).sum) := by
  have base := run_system_base (Mkfs.mkfs_made made few room) reached
  have start : Progress s f X ⟨s, fun _ => none, []⟩ :=
    ⟨base, rfl, inum, regular, ends.symm, (List.append_nil _).symm, nofun⟩
  have progress : Progress s f X t :=
    Runs.run_keeps (fun _ _ _ _ progress taken => turnStep_progress inode writable progress taken)
      (fun _ _ => trivial) ran start
  have off : (t.state.ftable f).off = (s.ftable f).off + (Merge.whole t.written).length := by
    rw [progress.file]
  have due : ∀ p, Merge.part p t.written ++ (t.left p).getD [] = Merge.part p (callsMade turns) :=
    run_due ran
  refine ⟨progress.data, off, due, progress.chunks, fun idle => ?_⟩
  have same : (Merge.whole t.written).length = (Merge.whole (callsMade turns)).length := by
    rw [Merge.length_whole, Merge.length_whole]
    refine Finset.sum_congr rfl fun p _ => ?_
    rw [← due p, idle p, Option.getD_none, List.append_nil]
  rw [off, same, Merge.whole, List.length_flatten, List.map_map]
  rfl

/-- An empty file is opened for writing, and the child gets the open file too. -/
def sharedFile : List (Fin NPROC × Call) := [(0, .sysOpen [47, 120] O_RDWR), (0, .fork (some 1))]

/-- The child's bytes come between the two chunks of its parent's call. -/
def inTurns : List Turn :=
  [.call 0 (List.replicate 1537 97), .call 1 [98, 99], .round 0, .round 1, .leave 1,
    .round 0, .leave 0]

theorem shared_writes_append_inTurns : ∃ im s t, Mkfs.mkfs [⟨[120], []⟩] = some im ∧
    runSystem im (fun _ => none) sharedFile = some s ∧
    Runs.run (turnStep 0) ⟨s, fun _ => none, []⟩ inTurns = some t ∧
    t.state.world.data 2 = s.world.data 2 ++ (List.replicate 1536 97 ++ [98, 99, 97]) ∧
    (t.state.ftable 0).off = (s.ftable 0).off + 1539 := by
  obtain ⟨im, made, room, s, reached, inode, writable, inum, regular, ends, t, ran, whole⟩ :
      Mkfs.Yields [⟨[120], []⟩] fun im => ∃ s ∈ runSystem im (fun _ => none) sharedFile,
        (s.ftable 0).type = .inode ∧ (s.ftable 0).writable = true ∧
        (s.icache (s.ftable 0).ip).inum = 2 ∧ (s.dinodes 2).type = .file ∧
        (s.ftable 0).off = (s.dinodes 2).size ∧
        ∃ t ∈ Runs.run (turnStep 0) ⟨s, fun _ => none, []⟩ inTurns,
          Merge.whole t.written = List.replicate 1536 97 ++ [98, 99, 97] := by decide +kernel
  obtain ⟨data, off, _⟩ :=
    shared_writes_append made (by decide) room reached inode writable inum regular ends ran
  rw [whole] at data off
  rw [List.length_append, List.length_replicate] at off
  exact ⟨im, s, t, made, reached, ran, data, off⟩

end Progress

end Xv6.Fs
