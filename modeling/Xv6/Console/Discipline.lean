import Mathlib.Data.List.Infix
import Mathlib.Data.List.Nodup
import Xv6.Console
import Xv6.Lib.Runs

/- The ring and its counters keep the line discipline, and the readers get what was committed. -/
namespace Xv6.Console

open Wrap Runs

/-- The ring holds the committed characters that nobody read, and those that can be edited. -/
structure Holds (input : Input) (unread pending : List UInt8) : Prop where
  held : Held input.buf input.r (unread ++ pending)
  w : input.w = input.r + UInt32.ofNat unread.length
  e : input.e = input.w + UInt32.ofNat pending.length
  full : unread.length + pending.length = INPUT_BUF → pending = []
  line : NEWLINE ∉ pending

section Ring

variable {input : Input} {unread pending : List UInt8} {c : UInt8}

theorem Holds.room (holds : Holds input unread pending) :
    unread.length + pending.length ≤ INPUT_BUF := by
  have room := holds.held.room
  rwa [List.length_append] at room

theorem Holds.e_eq (holds : Holds input unread pending) :
    input.e = input.r + UInt32.ofNat (unread ++ pending).length := by
  rw [holds.e, holds.w, List.length_append, UInt32.ofNat_add, UInt32.add_assoc]

/-- The counters are in order. -/
theorem Holds.order (holds : Holds input unread pending) :
    (input.w - input.r).toNat = unread.length ∧
    (input.e - input.r).toNat = unread.length + pending.length := by
  have room := holds.room
  simp only [INPUT_BUF] at room
  constructor
  · rw [holds.w, toNat_add_sub (by omega)]
  · rw [holds.e_eq, List.length_append, toNat_add_sub (by omega)]

theorem Holds.edits_iff (holds : Holds input unread pending) :
    input.e = input.w ↔ pending = [] := by
  have room := holds.room
  simp only [INPUT_BUF] at room
  constructor
  · intro same
    have zero : input.w + UInt32.ofNat pending.length = input.w + UInt32.ofNat 0 := by
      rw [← holds.e, same]
      exact (UInt32.add_zero _).symm
    exact List.length_eq_zero_iff.mp (add_ofNat_inj (by omega) (by decide) zero)
  · intro empty
    rw [holds.e, empty]
    exact UInt32.add_zero _

theorem Holds.empty_iff (holds : Holds input unread pending) : input.r = input.w ↔ unread = [] := by
  have room := holds.room
  simp only [INPUT_BUF] at room
  constructor
  · intro same
    have zero : input.r + UInt32.ofNat unread.length = input.r + UInt32.ofNat 0 := by
      rw [← holds.w, ← same]
      exact (UInt32.add_zero _).symm
    exact List.length_eq_zero_iff.mp (add_ofNat_inj (by omega) (by decide) zero)
  · intro empty
    rw [holds.w, empty]
    exact (UInt32.add_zero _).symm

/-- Backspace. -/
theorem Holds.erase (holds : Holds input unread (pending ++ [c])) :
    Holds { input with e := input.e - 1 } unread pending := by
  have held := holds.held
  rw [← List.append_assoc] at held
  have room := holds.room
  rw [List.length_append, List.length_singleton] at room
  refine ⟨held.left, holds.w, ?_, fun full => ?_, fun member =>
    holds.line (List.mem_append_left _ member)⟩
  · rw [holds.e, List.length_append, List.length_singleton, add_ofNat_succ]
    grind
  · omega

/-- Kill line removes all that can be edited. -/
theorem Holds.killLine {rounds : Nat} (holds : Holds input unread pending)
    (enough : pending.length ≤ rounds) :
    Holds (killLine rounds input) unread [] ∧ (Console.killLine rounds input).r = input.r := by
  induction pending using List.reverseRecOn generalizing input rounds with
  | nil =>
    have same : input.e = input.w := holds.edits_iff.mpr rfl
    cases rounds with
    | zero => exact ⟨holds, rfl⟩
    | succ rounds =>
      grind [Console.killLine]
  | append_singleton pending c ih =>
    rw [List.length_append, List.length_singleton] at enough
    obtain ⟨rounds, rfl⟩ := Nat.exists_eq_succ_of_ne_zero (Nat.ne_zero_of_lt enough)
    have held := holds.held
    rw [← List.append_assoc] at held
    have position : input.e - 1 = input.r + UInt32.ofNat (unread ++ pending).length := by
      have e := holds.erase.e_eq
      exact e
    have last : input.buf (slot (input.e - 1)) = c := by
      rw [position]
      exact held.last
    have other : input.buf (slot (input.e - 1)) ≠ NEWLINE := by
      rw [last]
      exact fun newline => holds.line (List.mem_append_right _
        (List.mem_singleton.mpr newline.symm))
    have more : input.e ≠ input.w := fun same => List.append_ne_nil_of_right_ne_nil pending
      (List.cons_ne_nil c []) (holds.edits_iff.mp same)
    grind [Console.killLine, erase, Nat.le_of_succ_le_succ]

theorem Holds.room_iff (holds : Holds input unread pending) :
    input.e - input.r < 128 ↔ unread.length + pending.length ≠ INPUT_BUF := by
  have room := holds.room
  rw [UInt32.lt_iff_toNat_lt, holds.order.2, show (128 : UInt32).toNat = INPUT_BUF from rfl]
  omega

theorem Holds.full_iff (holds : Holds input unread pending) :
    input.e = input.r + 128 ↔ unread.length + pending.length = INPUT_BUF := by
  have room := holds.room
  simp only [INPUT_BUF] at room
  rw [holds.e_eq, List.length_append]
  constructor
  · intro same
    exact add_ofNat_inj (by omega) (by decide) same
  · intro full
    rw [full]
    rfl

/-- A character is stored, and can be edited. -/
theorem Holds.stored (holds : Holds input unread pending)
    (space : unread.length + pending.length < INPUT_BUF) (other : c ≠ NEWLINE)
    (more : unread.length + pending.length + 1 ≠ INPUT_BUF) :
    Holds { input with buf := Function.update input.buf (slot input.e) c, e := input.e + 1 } unread
      (pending ++ [c]) := by
  have pushed := holds.held.push (by decide) (by rw [List.length_append]; exact space) c
  rw [← holds.e_eq, List.append_assoc] at pushed
  refine ⟨pushed, holds.w, ?_, fun full => ?_, fun member => ?_⟩
  · rw [List.length_append, List.length_singleton, add_ofNat_succ, holds.e]
  · grind
  · rcases List.mem_append.mp member with before | last
    · exact holds.line before
    · exact other (List.mem_singleton.mp last).symm

/-- A character is stored, and the line with it is committed. -/
theorem Holds.committed (holds : Holds input unread pending)
    (space : unread.length + pending.length < INPUT_BUF) (c : UInt8) : Holds { input with
      buf := Function.update input.buf (slot input.e) c
      e := input.e + 1
      w := input.e + 1 } (unread ++ (pending ++ [c])) [] := by
  have pushed := holds.held.push (by decide) (by rw [List.length_append]; exact space) c
  rw [← holds.e_eq, List.append_assoc] at pushed
  refine ⟨by rw [List.append_nil]; exact pushed, ?_, (UInt32.add_zero _).symm, fun _ => rfl,
    List.not_mem_nil⟩
  rw [holds.e_eq, ← List.append_assoc, ← add_ofNat_succ, List.length_append, List.length_append,
    List.length_append, List.length_singleton]

theorem store_holds (holds : Holds input unread pending)
    (space : unread.length + pending.length < INPUT_BUF) (removed : List UInt8) (c : UInt8) :
    ∃ unread' pending', Holds (store input c).1 unread' pending' ∧
      Line.store removed.length ⟨removed ++ unread, pending⟩ c =
        ⟨removed ++ unread', pending'⟩ := by
  have committed := holds.committed space c
  have ends : input.e + 1 = input.r + 128 ↔ unread.length + pending.length + 1 = INPUT_BUF := by
    have full := committed.full_iff
    grind
  have lengths : (removed ++ unread).length + (pending ++ [c]).length = removed.length + INPUT_BUF ↔
      unread.length + pending.length + 1 = INPUT_BUF := by
    grind
  unfold store Line.store
  simp only [lengths, ends]
  split
  · exact ⟨unread ++ (pending ++ [c]), [], committed, by rw [List.append_assoc]⟩
  · grind [Holds.stored]

/-- `consoleintr` does to the ring what the discipline does to the line. -/
theorem typed_holds (holds : Holds input unread pending) (removed : List UInt8) (c : UInt8) :
    ∃ unread' pending', Holds (typed input c).1 unread' pending' ∧
      Line.type removed.length ⟨removed ++ unread, pending⟩ c = ⟨removed ++ unread', pending'⟩ := by
  have room := holds.room
  unfold typed Line.type
  by_cases list : c = C 'P'
  · grind
  rw [if_neg list, if_neg list]
  by_cases kill : c = C 'U'
  · rw [if_pos kill, if_pos kill]
    have rounds : (input.e - input.w).toNat = pending.length := by
      simp only [INPUT_BUF] at room
      rw [holds.e, toNat_add_sub (by omega)]
    exact ⟨unread, [], (holds.killLine rounds.ge).1, rfl⟩
  rw [if_neg kill, if_neg kill]
  by_cases erase : c = C 'H' ∨ c = DEL
  · rw [if_pos erase, if_pos erase]
    split
    · rename_i more
      rcases List.eq_nil_or_concat' pending with empty | ⟨before, last, rfl⟩
      · exact absurd (holds.edits_iff.mpr empty) more
      · rw [List.dropLast_concat]
        exact ⟨unread, before, holds.erase, rfl⟩
    · rename_i none
      have empty := holds.edits_iff.mp (Decidable.not_not.mp none)
      grind
  rw [if_neg erase, if_neg erase]
  have lengths : (removed ++ unread).length + pending.length = removed.length + INPUT_BUF ↔
      unread.length + pending.length = INPUT_BUF := by
    rw [List.length_append]
    omega
  simp only [lengths]
  by_cases dropped : c = 0 ∨ unread.length + pending.length = INPUT_BUF
  · have out : ¬ (c ≠ 0 ∧ input.e - input.r < 128) := by
      rw [holds.room_iff]
      tauto
    grind
  · have takes : c ≠ 0 ∧ input.e - input.r < 128 := by
      rw [holds.room_iff]
      tauto
    rw [if_pos takes, if_neg dropped]
    exact store_holds holds (by omega) removed _

theorem consoleintr_holds (holds : Holds input unread pending) (removed chars : List UInt8) :
    ∃ unread' pending', Holds (consoleintr input chars).1 unread' pending' ∧
      chars.foldl (Line.type removed.length) ⟨removed ++ unread, pending⟩ =
        ⟨removed ++ unread', pending'⟩ := by
  induction chars generalizing input unread pending with
  | nil => exact ⟨unread, pending, holds, rfl⟩
  | cons c rest ih =>
    obtain ⟨unread', pending', next, line⟩ := typed_holds holds removed c
    rw [List.foldl_cons, line]
    exact ih next

end Ring

section Read

variable {input : Input} {unread pending : List UInt8} {c : UInt8} {target n : Nat}

theorem Holds.pop (holds : Holds input (c :: unread) pending) : input.buf (slot input.r) = c ∧
    Holds { input with r := input.r + 1 } unread pending := by
  have room := holds.room
  rw [List.length_cons] at room
  refine ⟨holds.held.head, holds.held.pop, ?_, holds.e, fun full => ?_, holds.line⟩
  · rw [holds.w, List.length_cons, add_ofNat_succ]
    grind
  · omega

/-- How a section of a reader that is not killed ends. -/
inductive Ended (target n : Nat) (part : Section) : Prop
  | sleep (exit : part.exit = .sleep) (met : part.met = part.stored)
      (removed : part.removed = part.stored) (line : NEWLINE ∉ part.stored)
  | done (exit : part.exit = .done) (removed : part.removed = part.stored)
      (met : part.met = part.stored ∧ NEWLINE ∉ part.stored.dropLast ∨
        part.met = part.stored ++ [EOF] ∧ NEWLINE ∉ part.stored)
  | eof (exit : part.exit = .done) (met : part.met = [EOF]) (removed : part.removed = [EOF])
      (nothing : part.stored = []) (whole : n = target)

theorem newline_last {first rest : List UInt8} (none : NEWLINE ∉ first)
    (line : NEWLINE ∉ rest.dropLast) :
    NEWLINE ∉ (first ++ rest).dropLast := by
  grind [List.mem_of_mem_dropLast, List.dropLast_append_of_ne_nil]

/-- The characters that a call met, when it returns. -/
theorem met_finished {stored bytes met : List UInt8} (line : NEWLINE ∉ stored)
    (data : EOF ∉ stored ++ bytes)
    (ends : met = bytes ∧ NEWLINE ∉ bytes.dropLast ∨ met = bytes ++ [EOF] ∧ NEWLINE ∉ bytes) :
    stored ++ bytes = (stored ++ met).filter (· ≠ EOF) ∧ NEWLINE ∉ (stored ++ met).dropLast ∧
      EOF ∉ (stored ++ met).dropLast := by
  have all : (stored ++ bytes).filter (· ≠ EOF) = stored ++ bytes :=
    List.filter_eq_self.mpr fun c member => decide_eq_true fun same => data (same ▸ member)
  rcases ends with ⟨rfl, last⟩ | ⟨rfl, none⟩
  · exact ⟨all.symm, newline_last line last, fun member => data (List.mem_of_mem_dropLast member)⟩
  · grind

/-- A section removes characters from the front; ^D is removed only by a call that has no byte
yet. -/
theorem readLoop_spec (holds : Holds input unread pending) (within : n ≤ target) :
    ∃ rest, unread = (readLoop false target n input).removed ++ rest ∧
      Holds (readLoop false target n input).input rest pending ∧
      (readLoop false target n input).left + (readLoop false target n input).stored.length = n ∧
      EOF ∉ (readLoop false target n input).stored ∧
        Ended target n (readLoop false target n input) := by
  induction n generalizing input unread with
  | zero => exact ⟨unread, rfl, holds, rfl, List.not_mem_nil,
      Ended.done rfl rfl (Or.inl ⟨rfl, List.not_mem_nil⟩)⟩
  | succ n ih =>
    rw [readLoop]
    split
    · exact ⟨unread, rfl, holds, rfl, List.not_mem_nil, Ended.sleep rfl rfl rfl List.not_mem_nil⟩
    rename_i some
    cases unread with
    | nil => exact absurd (holds.empty_iff.mpr rfl) some
    | cons c unread =>
      obtain ⟨first, next⟩ := holds.pop
      rw [first]
      dsimp only
      split
      · rename_i eof
        split
        · -- The ^D is put back.
          have back : input.r + 1 - 1 = input.r := by grind
          rw [back]
          refine ⟨c :: unread, rfl, holds, rfl, List.not_mem_nil,
            Ended.done rfl rfl (Or.inr ⟨?_, List.not_mem_nil⟩)⟩
          rw [eof]
          rfl
        · rw [eof]
          exact ⟨unread, rfl, next, rfl, List.not_mem_nil, Ended.eof rfl rfl rfl rfl (by omega)⟩
      rename_i data
      split
      · refine ⟨unread, rfl, next, rfl, ?_, Ended.done rfl rfl (Or.inl ⟨rfl, List.not_mem_nil⟩)⟩
        exact fun member => data (List.mem_singleton.mp member).symm
      rename_i other
      have plain : NEWLINE ∉ [c] := fun member => other (List.mem_singleton.mp member).symm
      obtain ⟨rest, split, after, count, bytes, ended⟩ := ih next (by omega)
      refine ⟨rest, by rw [List.cons_append, ← split], after, congrArg Nat.succ count, ?_, ?_⟩
      · exact List.not_mem_cons_of_ne_of_not_mem (Ne.symm data) bytes
      cases ended with
      | sleep exit met removed line =>
        refine Ended.sleep exit (congrArg (c :: ·) met) (congrArg (c :: ·) removed) ?_
        exact List.not_mem_cons_of_ne_of_not_mem (Ne.symm other) line
      | done exit removed met =>
        refine Ended.done exit (congrArg (c :: ·) removed) ?_
        rcases met with ⟨met, line⟩ | ⟨met, line⟩
        · exact Or.inl ⟨congrArg (c :: ·) met, newline_last plain line⟩
        · refine Or.inr ⟨congrArg (c :: ·) met, ?_⟩
          exact List.not_mem_cons_of_ne_of_not_mem (Ne.symm other) line
      | eof exit met removed nothing whole => omega

end Read

section System

variable {ι : Type} {s s' : System ι} {p : ι} {x : Reading} {k : Nat}

/-- The characters of call `k` in a history. -/
def ofCall (history : List (Nat × UInt8)) (k : Nat) : List UInt8 :=
  (history.filter fun entry => entry.1 = k).map Prod.snd

theorem ofCall_append (history : List (Nat × UInt8)) (more : List UInt8) (n k : Nat) :
    ofCall (history ++ more.map fun c => (n, c)) k = ofCall history k ++ if k =
      n then more else [] := by
  rw [ofCall, List.filter_append, List.map_append, ofCall]
  congr 1
  split
  · rename_i same
    rw [same, List.filter_eq_self.mpr, List.map_map]
    · exact List.map_id more
    · simp
  · rename_i other
    rw [List.filter_eq_nil_iff.mpr, List.map_nil]
    intro entry member
    obtain ⟨c, _, rfl⟩ := List.mem_map.mp member
    simpa using Ne.symm other

theorem ofCall_filter (history : List (Nat × UInt8)) (k : Nat) :
    ofCall (history.filter (·.2 ≠ EOF)) k = (ofCall history k).filter (· ≠ EOF) := by
  rw [ofCall, ofCall, List.filter_map, List.filter_filter, List.filter_filter]
  congr 1
  refine List.filter_congr fun entry _ => ?_
  exact Bool.and_comm _ _

theorem ofCall_eq_nil {history : List (Nat × UInt8)} (unused : ∀ entry ∈ history, entry.1 ≠ k) :
    ofCall history k = [] := by
  grind [ofCall, List.filter_eq_nil_iff]

/-- A call that has not returned yet. -/
structure Going (s : System ι) (p : ι) (x : Reading) : Prop where
  number : x.number < s.calls
  met : ofCall s.met x.number = x.stored
  removed : ofCall s.removed x.number = x.stored
  count : x.left + x.stored.length = x.target
  line : NEWLINE ∉ x.stored
  data : EOF ∉ x.stored
  alone : ∀ q y, s.reading q = some y → y.number = x.number → q = p
  open' : ∀ y ∈ s.results, y.number ≠ x.number

/-- A call that has returned: newline and ^D are the last characters that it met, if it met one,
and it returned the number of bytes that it was given. -/
structure Returned (delivered met : List (Nat × UInt8)) (x : Result) : Prop where
  bytes : x.stored = ofCall delivered x.number
  value : x.value = x.stored.length
  data : x.stored = (ofCall met x.number).filter (· ≠ EOF)
  newline : NEWLINE ∉ (ofCall met x.number).dropLast
  eof : EOF ∉ (ofCall met x.number).dropLast

/-- What the readers have got from the line. -/
structure Sound (s : System ι) : Prop where
  ring : ∃ unread, Holds s.input unread s.line.pending ∧
    s.line.committed = s.removed.map Prod.snd ++ unread
  alive : ∀ p, s.killed p = false
  delivered : s.delivered = s.removed.filter (·.2 ≠ EOF)
  known : ∀ entry ∈ s.met ++ s.removed, entry.1 < s.calls
  going : ∀ p x, s.reading p = some x → Going s p x
  returned : ∀ x ∈ s.results, x.number < s.calls ∧ Returned s.delivered s.met x
  once : (s.results.map Result.number).Nodup
  eof : ∀ k, (k, EOF) ∈ s.removed → ofCall s.removed k = [EOF] ∧ ∃ x ∈ s.results, x.number = k ∧
    x.value = 0

section Took

variable {part : Section} {target n : Nat}

theorem Ended.filtered (ended : Ended target n part) (data : EOF ∉ part.stored) :
    (part.removed.map fun c => (k, c)).filter (·.2 ≠ EOF) = part.stored.map fun c => (k, c) := by
  have all : (part.stored.map fun c => (k, c)).filter (·.2 ≠ EOF) = part.stored.map fun c =>
    (k, c) := by
    refine List.filter_eq_self.mpr fun entry member => ?_
    obtain ⟨c, stored, rfl⟩ := List.mem_map.mp member
    exact decide_eq_true fun same => data (same ▸ stored)
  cases ended with
  | sleep _ _ removed _ => rw [removed, all]
  | done _ removed _ => rw [removed, all]
  | eof _ _ removed nothing _ =>
    rw [removed, nothing]
    rfl

theorem took_other {k' : Nat} (other : k' ≠ k) : ofCall (s.took k part).met k' = ofCall s.met k' ∧
    ofCall (s.took k part).removed k' = ofCall s.removed k' ∧
    ofCall (s.took k part).delivered k' = ofCall s.delivered k' := by
  grind [System.took, ofCall_append]

theorem took_self : ofCall (s.took k part).met k = ofCall s.met k ++ part.met ∧
    ofCall (s.took k part).removed k = ofCall s.removed k ++ part.removed ∧
    ofCall (s.took k part).delivered k = ofCall s.delivered k ++ part.stored := by
  grind [System.took, ofCall_append]

theorem Returned.took {y : Result} (returned : Returned s.delivered s.met y)
    (other : y.number ≠ k) :
    Returned (s.took k part).delivered (s.took k part).met y := by
  obtain ⟨met, _, delivered⟩ := @took_other ι s k part y.number other
  refine ⟨?_, returned.value, ?_, ?_, ?_⟩
  · rw [delivered]
    exact returned.bytes
  · rw [met]
    exact returned.data
  · rw [met]
    exact returned.newline
  · rw [met]
    exact returned.eof

end Took

section Steps

variable {part : Section} {rest : List UInt8} {reading : ι → Option Reading} {new : List Result}

/-- A section of call `x`: it goes on, or there is its result. -/
theorem Sound.moved (sound : Sound s) (going : Going s p x) (ended : Ended x.target x.left part)
    (data : EOF ∉ part.stored) (ring : Holds part.input rest s.line.pending)
    (committed : s.line.committed = s.removed.map Prod.snd ++ (part.removed ++ rest))
    (others : ∀ q, q ≠ p → reading q = s.reading q)
    (goes : ∀ y, reading p = some y → y.number = x.number ∧ new = [] ∧
      Going { s.took x.number part with reading := reading, results := s.results ++ new } p y)
    (results : ∀ r ∈ new, r.number = x.number ∧ Returned (s.took x.number part).delivered
      (s.took x.number part).met r)
    (once : (new.map Result.number).Nodup)
    (eof : EOF ∈ part.removed → ofCall (s.took x.number part).removed x.number = [EOF] ∧ ∃ r ∈ new,
      r.value = 0) :
    Sound { s.took x.number part with reading := reading, results := s.results ++ new } := by
  refine ⟨⟨rest, ring, ?_⟩, sound.alive, ?_, fun entry member => ?_, fun q y there => ?_,
    fun y member => ?_, ?_, fun k member => ?_⟩
  · change s.line.committed = (s.removed ++ part.removed.map _).map Prod.snd ++ rest
    rw [committed, List.map_append, List.map_map, List.append_assoc]
    simp
  · change s.delivered ++ _ = (s.removed ++ part.removed.map _).filter _
    rw [List.filter_append, ended.filtered data, sound.delivered]
  · have cases : entry ∈ s.met ++ s.removed ∨ entry.1 = x.number := by
      have mine : ∀ chars : List UInt8, entry ∈ (chars.map fun c => (x.number, c)) →
        entry.1 = x.number := by
        intro chars member
        obtain ⟨c, _, rfl⟩ := List.mem_map.mp member
        rfl
      rcases List.mem_append.mp member with inMet | inRemoved
      · rcases List.mem_append.mp inMet with old | fresh
        · exact Or.inl (List.mem_append_left _ old)
        · exact Or.inr (mine part.met fresh)
      · rcases List.mem_append.mp inRemoved with old | fresh
        · exact Or.inl (List.mem_append_right _ old)
        · exact Or.inr (mine part.removed fresh)
    rcases cases with before | mine
    · exact sound.known entry before
    · rw [mine]
      exact going.number
  · by_cases self : q = p
    · subst self
      exact (goes y there).2.2
    · change reading q = some y at there
      rw [others q self] at there
      have other : y.number ≠ x.number := fun same => self (going.alone q y there same)
      obtain ⟨met, removed, _⟩ := @took_other ι s x.number part y.number other
      have before := sound.going q y there
      refine ⟨before.number, met.trans before.met, removed.trans before.removed, before.count,
        before.line, before.data, fun q' y' there' same => ?_, fun r member => ?_⟩
      · change reading q' = some y' at there'
        by_cases mine : q' = p
        · grind
        · grind [Going.alone]
      · rcases List.mem_append.mp member with old | fresh
        · exact before.open' r old
        · grind
  · rcases List.mem_append.mp member with old | fresh
    · obtain ⟨number, returned⟩ := sound.returned y old
      exact ⟨number, returned.took (going.open' y old)⟩
    · obtain ⟨number, returned⟩ := results y fresh
      exact ⟨number ▸ going.number, returned⟩
  · rw [List.map_append]
    refine List.nodup_append.mpr ⟨sound.once, once, fun n old m fresh same => ?_⟩
    obtain ⟨y, member, rfl⟩ := List.mem_map.mp old
    obtain ⟨r, inside, rfl⟩ := List.mem_map.mp fresh
    exact going.open' y member (same.trans (results r inside).1)
  · rcases List.mem_append.mp member with old | fresh
    · obtain ⟨only, r, inside, number, value⟩ := sound.eof k old
      have other : k ≠ x.number := fun same => going.open' r inside (number.trans same)
      exact ⟨(@took_other ι s x.number part k other).2.1.trans only, r,
        List.mem_append_left _ inside, number, value⟩
    · obtain ⟨c, inside, same⟩ := List.mem_map.mp fresh
      obtain ⟨rfl, rfl⟩ := same
      obtain ⟨only, r, member, value⟩ := eof inside
      exact ⟨only, r, List.mem_append_right _ member, (results r member).1, value⟩

variable [DecidableEq ι]

/-- Process `p` goes on with its call. -/
theorem Sound.advance (sound : Sound s) (going : Going s p x) : Sound (s.advance p x) := by
  obtain ⟨unread, holds, committed⟩ := sound.ring
  have within : x.left ≤ x.target := by
    rw [← going.count]
    exact Nat.le_add_right _ _
  obtain ⟨rest, split, ring, count, data, ended⟩ := readLoop_spec holds within
  have others : ∀ value q, q ≠ p → Function.update s.reading p value q = s.reading q :=
    fun value q other => Function.update_of_ne other _ _
  rw [split] at committed
  unfold System.advance
  rw [sound.alive p]
  generalize readLoop false x.target x.left s.input = part at *
  obtain ⟨met, removed, delivered⟩ := @took_self ι s x.number part
  rw [going.met] at met
  rw [going.removed] at removed
  have before : ofCall s.delivered x.number = x.stored := by
    rw [sound.delivered, ofCall_filter, going.removed, List.filter_eq_self.mpr]
    exact fun c member => decide_eq_true fun same => going.data (same ▸ member)
  rw [before] at delivered
  have total : (x.target : Int) - part.left = (x.stored ++ part.stored).length := by
    rw [List.length_append]
    have sum := going.count
    omega
  have plain : EOF ∉ x.stored ++ part.stored :=
    fun member => (List.mem_append.mp member).elim going.data data
  -- The call returns.
  have returns : (part.met = part.stored ∧ NEWLINE ∉ part.stored.dropLast ∨
      part.met = part.stored ++ [EOF] ∧ NEWLINE ∉ part.stored) →
      (EOF ∈ part.removed → ofCall (s.took x.number part).removed x.number = [EOF] ∧
      (x.target : Int) - part.left = 0) → Sound { s.took x.number part with
        reading := Function.update s.reading p none
        results :=
          s.results ++ [⟨x.number, (x.target : Int) - part.left, x.stored ++ part.stored⟩] } := by
    intro ends eof
    refine sound.moved going ended data ring committed (others none) (fun y there => ?_)
      (fun r member => ?_) (List.nodup_singleton _) fun member => ?_
    · grind
    · rw [List.mem_singleton] at member
      subst member
      obtain ⟨same, newline, eof⟩ := met_finished going.line plain ends
      rw [← met] at same newline eof
      exact ⟨rfl, delivered.symm, total, same, newline, eof⟩
    · obtain ⟨only, zero⟩ := eof member
      exact ⟨only, _, List.mem_singleton_self _, zero⟩
  dsimp only
  cases id ended with
  | sleep exit sameMet sameRemoved line =>
    rw [exit]
    rw [sameMet] at met
    rw [sameRemoved] at removed
    have goes := @Sound.moved ι s p x part rest (Function.update s.reading p
      (some ⟨x.number, x.target, part.left, x.stored ++ part.stored, true⟩)) [] sound going ended
      data ring committed (others _)
    rw [List.append_nil] at goes
    refine goes (fun y there => ?_) nofun List.nodup_nil fun member => ?_
    · rw [Function.update_self, Option.some.injEq] at there
      subst there
      refine ⟨rfl, rfl, going.number, met, removed, ?_, ?_, plain, fun q y there same => ?_,
        going.open'⟩
      · change part.left + (x.stored ++ part.stored).length = x.target
        have sum := going.count
        omega
      · exact fun member => (List.mem_append.mp member).elim going.line line
      · by_cases self : q = p
        · exact self
        · exact going.alone q y ((others _ q self).symm.trans there) same
    · grind
  | done exit sameRemoved sameMet =>
    rw [exit]
    refine returns sameMet fun member => ?_
    rw [sameRemoved] at member
    exact absurd member data
  | eof exit sameMet sameRemoved nothing whole =>
    rw [exit]
    have empty : x.stored = [] := by
      have sum := going.count
      exact List.length_eq_zero_iff.mp (by omega)
    refine returns (Or.inr ⟨?_, ?_⟩) fun _ => ⟨?_, ?_⟩
    · rw [sameMet, nothing, List.nil_append]
    · rw [nothing]
      exact List.not_mem_nil
    · rw [removed, empty, sameRemoved, List.nil_append]
    · rw [total, empty, nothing]
      rfl

omit [DecidableEq ι] in
theorem Sound.wakeup (sound : Sound s) : Sound s.wakeup := by
  have old : ∀ p y, s.wakeup.reading p = some y → ∃ x, s.reading p = some x ∧
    y = { x with asleep := false } := by
    intro p y there
    obtain ⟨x, before, same⟩ := Option.map_eq_some_iff.mp there
    exact ⟨x, before, same.symm⟩
  refine ⟨sound.ring, sound.alive, sound.delivered, sound.known, fun p y there => ?_,
    sound.returned, sound.once, sound.eof⟩
  obtain ⟨x, before, rfl⟩ := old p y there
  have going := sound.going p x before
  refine ⟨going.number, going.met, going.removed, going.count, going.line, going.data,
    fun q z there' same => ?_, going.open'⟩
  obtain ⟨z', before', rfl⟩ := old q z there'
  exact going.alone q z' before' same

omit [DecidableEq ι] in
/-- An interrupt changes the ring and the line. -/
theorem Sound.typed (sound : Sound s) (chars : List UInt8) : Sound { s with
    input := (consoleintr s.input chars).1
    line := chars.foldl (Line.type s.removed.length) s.line } := by
  obtain ⟨unread, holds, committed⟩ := sound.ring
  obtain ⟨unread', pending', after, line⟩ := consoleintr_holds holds (s.removed.map Prod.snd) chars
  rw [← committed, List.length_map] at line
  refine ⟨⟨unread', ?_, ?_⟩, sound.alive, sound.delivered, sound.known, fun p x there => ?_,
    sound.returned, sound.once, sound.eof⟩
  · dsimp only
    rw [line]
    exact after
  · dsimp only
    rw [line]
  · have going := sound.going p x there
    exact ⟨going.number, going.met, going.removed, going.count, going.line, going.data, going.alone,
      going.open'⟩

omit [DecidableEq ι] in
/-- A call gets its number. -/
theorem Sound.called (sound : Sound s) : Sound { s with calls := s.calls + 1 } := by
  refine ⟨sound.ring, sound.alive, sound.delivered, fun entry member =>
    Nat.lt_succ_of_lt (sound.known entry member),
    fun p x there => ?_, fun x member => ?_, sound.once, sound.eof⟩
  · have going := sound.going p x there
    exact ⟨Nat.lt_succ_of_lt going.number, going.met, going.removed, going.count, going.line,
      going.data, going.alone, going.open'⟩
  · obtain ⟨number, returned⟩ := sound.returned x member
    exact ⟨Nat.lt_succ_of_lt number, returned⟩

theorem step_sound {event : Event ι} (calm : ∀ p, event ≠ .kill p) (sound : Sound s)
    (taken : step s event = some s') :
    Sound s' := by
  cases event with
  | intr chars =>
    grind [step, Option.some.injEq, Sound.typed, Sound.wakeup]
  | read p n =>
    rw [step] at taken
    split at taken
    · cases taken
      have fresh : ∀ history, (∀ entry ∈ history, entry ∈ s.met ++ s.removed) →
        ofCall history s.calls = [] := by
        intro history inside
        exact ofCall_eq_nil fun entry member =>
          Nat.ne_of_lt (sound.known entry (inside entry member))
      refine sound.called.advance ⟨Nat.lt_succ_self _, fresh s.met fun entry member =>
        List.mem_append_left _ member,
        fresh s.removed fun entry member => List.mem_append_right _ member, Nat.add_zero _,
        List.not_mem_nil, List.not_mem_nil, fun q y there same => ?_, fun y member => ?_⟩
      · exact absurd same (Nat.ne_of_lt (sound.going q y there).number)
      · exact Nat.ne_of_lt (sound.returned y member).1
    · cases taken
  | resume p =>
    grind [step, Sound.advance, Sound.going]
  | kill p => exact absurd rfl (calm p)

/-- The counters are in order. What the calls removed from the ring is what the line committed, in
order, up to some point, and all of it but ^D was delivered to the call that removed it. A call
that returned got no byte beyond a newline or a ^D that it met; a ^D that was removed is all that
its call removed, and that call returned 0. -/
structure Disciplined (s : System ι) : Prop where
  order : (s.input.w - s.input.r).toNat ≤ (s.input.e - s.input.r).toNat ∧
    (s.input.e - s.input.r).toNat ≤ INPUT_BUF
  inOrder : s.removed.map Prod.snd <+: s.line.committed
  delivered : s.delivered = s.removed.filter (·.2 ≠ EOF)
  returned : ∀ x ∈ s.results, Returned s.delivered s.met x
  once : (s.results.map Result.number).Nodup
  eof : ∀ k, (k, EOF) ∈ s.removed → ofCall s.removed k = [EOF] ∧ ∃ x ∈ s.results, x.number = k ∧
    x.value = 0

/-- Any input and any calls of `consoleread` by processes that are not killed, from counters of any
value. -/
theorem console_discipline {buf : Fin INPUT_BUF → UInt8} {counter : UInt32}
    {events : List (Event ι)} (calm : ∀ event ∈ events, ∀ p, event ≠ .kill p)
    (reached : run step (initial buf counter) events = some s) : Disciplined s := by
  have empty : Holds ⟨buf, counter, counter, counter⟩ [] [] :=
    ⟨Held.nil buf counter, (UInt32.add_zero counter).symm, (UInt32.add_zero counter).symm,
      fun _ => rfl, List.not_mem_nil⟩
  have start : Sound (initial buf counter : System ι) :=
    ⟨⟨[], empty, rfl⟩, fun _ => rfl, rfl, nofun, nofun, nofun, List.nodup_nil, nofun⟩
  have sound : Sound s := run_keeps (fun s event next calm sound taken =>
    step_sound calm sound taken) calm reached start
  obtain ⟨unread, holds, committed⟩ := sound.ring
  obtain ⟨w, e⟩ := holds.order
  have room := holds.room
  refine ⟨⟨by omega, by omega⟩, ⟨unread, committed.symm⟩, sound.delivered,
    fun x member => (sound.returned x member).2, sound.once, sound.eof⟩

/-- A reader waits; "ab", backspace, "c", newline and ^D are typed; the next call gets the ^D. -/
def lineThenEof : List (Event (Fin 2)) :=
  [.read 0 10, .intr [97, 98, 8, 99, 13, 4], .resume 0, .read 1 10]

theorem console_discipline_lineThenEof :
    ∃ s, run step (initial (fun _ => 0) 0xffffffff) lineThenEof = some s ∧
    s.results.map Result.stored = [[97, 99, 10], []] ∧ s.results.map Result.value = [3, 0] ∧
      Disciplined s := by
  have returns : (run step (initial (fun _ => 0) 0xffffffff) lineThenEof).map (fun s =>
      (s.results.map Result.stored, s.results.map Result.value)) = some ([[97, 99, 10], []],
        [3, 0]) := by decide +kernel
  obtain ⟨s, reached, facts⟩ := Option.map_eq_some_iff.mp returns
  rw [Prod.mk.injEq] at facts
  have calm : ∀ event ∈ lineThenEof, ∀ p, event ≠ .kill p := by
    intro event member p
    simp only [lineThenEof, List.mem_cons, List.not_mem_nil, or_false] at member
    rcases member with rfl | rfl | rfl | rfl <;> nofun
  exact ⟨s, reached, facts.1, facts.2, console_discipline calm reached⟩

end Steps

end System

end Xv6.Console
