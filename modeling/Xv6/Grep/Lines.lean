import Xv6.Grep

/- The buffer of `grep`: the bytes it holds from one `read` to the next, the lines found in it,
and what is written. -/
namespace Xv6.Grep

open CString (deref)

/-- The pointer `strchr` returns, as the string from there on. -/
def strchr (c : UInt8) : List UInt8 → Option (List UInt8)
  | [] => none
  | x :: s => if x = 0 then none else if x = c then some (x :: s) else strchr c s

/-- The inner loop, at `p`, with what is written so far. -/
def scan (depth : Nat) (pattern : List UInt8) :
    Nat → List UInt8 → List UInt8 → Option (List UInt8 × List UInt8)
  | 0, _, _ => none
  | rounds + 1, p, written =>
    match strchr 10 p with
    | none => some (p, written)
    | some q =>
      let line := p.take (p.length - q.length)
      match matchText depth pattern line with
      | none => none
      | some found => scan depth pattern rounds q.tail
          (if found then written ++ (line ++ [10]) else written)

/-- `grep` on the answers of `read`, with the first `m` bytes of `buf` and what is written so
far. A buffer in which no line ends is thrown away. -/
def grep (depth : Nat) (pattern : List UInt8) :
    List (List UInt8) → List UInt8 → List UInt8 → Option (List UInt8)
  | [], _, written => some written
  | chunk :: reads, buf, written =>
    match scan depth pattern depth (buf ++ chunk) written with
    | none => none
    | some (p, written) =>
      grep depth pattern reads (if p.length = (buf ++ chunk).length then [] else p) written

/-- Lines as a file holds them. -/
def text (lines : List (List UInt8)) : List UInt8 := lines.flatMap (· ++ [10])

open Classical in
/-- The lines that match. -/
noncomputable def selected (pattern : List UInt8) (lines : List (List UInt8)) : List (List UInt8) :=
  lines.filter fun line => Found pattern line

/-- No byte ends a line or a string. -/
def Plain (line : List UInt8) : Prop := 10 ∉ line ∧ 0 ∉ line

/-- Answers of `read` that are not empty and no longer than what `grep` asks for, from a buffer:
what stays in the buffer is the unfinished line, or nothing where no line has ended. -/
inductive Fits : List UInt8 → List (List UInt8) → Prop
  | done {buf : List UInt8} : Fits buf []
  | read {buf chunk rest : List UInt8} {lines reads : List (List UInt8)} (nonempty : chunk ≠ [])
      (room : chunk.length ≤ 1024 - buf.length - 1) (split : buf ++ chunk = text lines ++ rest)
      (ended : ∀ line ∈ lines, 10 ∉ line) (last : 10 ∉ rest)
      (more : Fits (if lines = [] then [] else rest) reads) : Fits buf (chunk :: reads)

section Scanning

variable {pattern : List UInt8} {depth rounds : Nat} {rest : List UInt8} {lines : List (List UInt8)}

theorem strchr_line {line : List UInt8} (plain : Plain line) (more : List UInt8) :
    strchr 10 (line ++ 10 :: more) = some (10 :: more) := by
  induction line with
  | nil => rfl
  | cons x line ih =>
    grind [Plain, strchr]

theorem strchr_rest (last : 10 ∉ rest) : strchr 10 rest = none := by
  induction rest with
  | nil => rfl
  | cons x rest ih =>
    rw [List.mem_cons, not_or] at last
    rw [strchr, if_neg (Ne.symm last.1), ih last.2, ite_self]

theorem text_cons (line : List UInt8) (lines : List (List UInt8)) :
    text (line :: lines) = line ++ 10 :: text lines := by
  simp only [text, List.flatMap_cons, List.append_assoc, List.singleton_append]

theorem text_append (first second : List (List UInt8)) :
    text (first ++ second) = text first ++ text second :=
  List.flatMap_append

theorem selected_append (first second : List (List UInt8)) :
    selected pattern (first ++ second) = selected pattern first ++ selected pattern second :=
      List.filter_append ..

open Classical in
theorem selected_cons (line : List UInt8) (lines : List (List UInt8)) :
    selected pattern (line :: lines) =
      if Found pattern line then line :: selected pattern lines else selected pattern lines := by
  simp only [selected, List.filter_cons, decide_eq_true_eq]

/-- The inner loop writes the lines that match and stops at the unfinished one. -/
theorem scan_lines (written : List UInt8) (re : 0 ∉ pattern) (plain : ∀ line ∈ lines, Plain line)
    (last : 10 ∉ rest) (deep : pattern.length + (text lines).length + 1 < depth)
    (enough : (text lines).length < rounds) :
    scan depth pattern rounds (text lines ++ rest) written =
      some (rest, written ++ text (selected pattern lines)) := by
  obtain ⟨rounds, rfl⟩ : ∃ less, rounds = less + 1 := ⟨rounds - 1, by omega⟩
  induction lines generalizing rounds written with
  | nil =>
    rw [scan, show text [] ++ rest = rest from rfl, strchr_rest last]
    simp [selected, text]
  | cons line lines ih =>
    rw [List.forall_mem_cons] at plain
    rw [text_cons, List.length_append, List.length_cons] at deep enough
    obtain ⟨rounds, rfl⟩ : ∃ less, rounds = less + 1 := ⟨rounds - 1, by omega⟩
    have cut : (line ++ 10 :: (text lines ++ rest)).take
        ((line ++ 10 :: (text lines ++ rest)).length - (10 :: (text lines ++ rest)).length) =
        line := by
      rw [List.length_append, Nat.add_sub_cancel, List.take_left]
    rw [text_cons, List.append_assoc, List.cons_append, scan, strchr_line plain.1]
    dsimp only
    rw [cut]
    have answers : Answers (matchText depth pattern line) _ := matchText_answers re plain.1.2
      (by omega)
    obtain ⟨found, returned, holds⟩ := answers
    rw [returned]
    dsimp only [List.tail_cons]
    rw [ih _ plain.2 (by omega) _ (by omega), selected_cons]
    grind [Found, text_cons, List.append_assoc, List.singleton_append]

/-- One `read`: its lines are dealt with, and the unfinished one stays unless no line has ended. -/
theorem grep_read {buf chunk written : List UInt8} {reads : List (List UInt8)} (re : 0 ∉ pattern)
    (nonempty : chunk ≠ []) (room : chunk.length ≤ 1024 - buf.length - 1)
    (split : buf ++ chunk = text lines ++ rest) (plain : ∀ line ∈ lines, Plain line)
    (last : 10 ∉ rest) (deep : pattern.length + 1025 < depth) :
    grep depth pattern (chunk :: reads) buf written =
      grep depth pattern reads (if lines = [] then [] else rest)
        (written ++ text (selected pattern lines)) := by
  have positive := List.length_pos_iff.mpr nonempty
  have size := congrArg List.length split
  simp only [List.length_append] at size
  rw [grep, split, scan_lines written re plain last (by omega) (by omega)]
  dsimp only
  cases lines with
  | nil => simp [text]
  | cons line lines =>
    have longer : ¬ rest.length = (text (line :: lines) ++ rest).length := by
      rw [text_cons, List.length_append, List.length_append, List.length_cons]
      omega
    rw [if_neg longer, if_neg (List.cons_ne_nil line lines)]

theorem line_inj {line line' more more' : List UInt8} (ended : 10 ∉ line) (ended' : 10 ∉ line') :
    line ++ 10 :: more = line' ++ 10 :: more' ↔ line = line' ∧ more = more' := by
  induction line generalizing line' with
  | nil => cases line' <;> simp_all [eq_comm]
  | cons x line ih => cases line' <;> simp_all [eq_comm, and_assoc]

theorem newline_mem_text (several : lines ≠ []) : 10 ∈ text lines := by
  obtain ⟨line, lines, rfl⟩ := List.exists_cons_of_ne_nil several
  rw [text_cons]
  exact List.mem_append_right line List.mem_cons_self

/-- The lines at the start of a file's text are its first lines. -/
theorem text_split {first : List (List UInt8)} (ended : ∀ line ∈ first, 10 ∉ line)
    (ended' : ∀ line ∈ lines, 10 ∉ line) (split : text first ++ rest = text lines) :
    ∃ later, lines = first ++ later ∧ rest = text later := by
  induction first generalizing lines with
  | nil => exact ⟨lines, rfl, split⟩
  | cons line first ih =>
    rw [List.forall_mem_cons] at ended
    cases lines with
    | nil => simp [text] at split
    | cons line' lines =>
      rw [List.forall_mem_cons] at ended'
      rw [text_cons, text_cons, List.append_assoc, List.cons_append,
        line_inj ended.1 ended'.1] at split
      obtain ⟨later, rfl, same⟩ := ih ended.2 ended'.2 split.2
      exact ⟨later, by rw [split.1, List.cons_append], same⟩

theorem mem_text {x : UInt8} (other : x ≠ 10) : x ∈ text lines ↔ ∃ line ∈ lines, x ∈ line := by
  simp only [text, List.mem_flatMap, List.mem_append, List.mem_singleton, other, or_false]

end Scanning

section Reading

variable {pattern buf : List UInt8} {reads lines : List (List UInt8)} {depth : Nat}

/-- Where every `read` ends a line, the unfinished line is all that is carried over. -/
theorem Fits.grep_lines (fits : Fits buf reads) (re : 0 ∉ pattern)
    (deep : pattern.length + 1025 < depth) (unfinished : 10 ∉ buf)
    (plain : ∀ line ∈ lines, Plain line) (input : buf ++ reads.flatten = text lines)
    (ends : ∀ chunk ∈ reads, 10 ∈ chunk) (written : List UInt8) :
    grep depth pattern reads buf written = some (written ++ text (selected pattern lines)) := by
  induction fits generalizing written lines with
  | done =>
    cases lines with
    | nil => simp [grep, selected, text]
    | cons line lines =>
      grind [List.flatten_nil, text_cons]
  | @read buf chunk rest ls reads nonempty room split ended last more ih =>
    rw [List.flatten_cons, ← List.append_assoc, split, List.append_assoc] at input
    obtain ⟨later, rfl, same⟩ := text_split ended (fun line inside => (plain line inside).1) input
    rw [List.forall_mem_append] at plain
    have several : ls ≠ [] := by
      rintro rfl
      have newline : 10 ∈ buf ++ chunk := List.mem_append_right buf (ends chunk List.mem_cons_self)
      rw [split] at newline
      exact last newline
    rw [if_neg several] at ih
    rw [grep_read re nonempty room split plain.1 last deep, if_neg several,
      ih last plain.2 same (fun chunk inside => ends chunk (List.mem_cons_of_mem _ inside)),
      selected_append, text_append, List.append_assoc]

theorem selected_nil (lines : List (List UInt8)) : selected [] lines = lines := by
  classical
  apply List.filter_eq_self.mpr
  intro line _
  apply decide_eq_true
  exact ⟨[], [], line, rfl, Language.nil_mem_one, fun _ => rfl, nofun⟩

/-- With the empty pattern, which every line matches, a `read` that ends no line makes the
output shorter than the input. -/
theorem Fits.grep_loses (fits : Fits buf reads) (deep : 1025 < depth) (unfinished : 10 ∉ buf)
    (plain : 0 ∉ buf ++ reads.flatten) (written : List UInt8) :
    ∃ output, grep depth [] reads buf written = some output ∧
      output.length ≤ written.length + buf.length + reads.flatten.length ∧
      ((∃ chunk ∈ reads, 10 ∉ chunk) → output.length < written.length + buf.length +
        reads.flatten.length) := by
  induction fits generalizing written with
  | done => exact ⟨written, rfl, by omega, nofun⟩
  | @read buf chunk rest ls reads nonempty room split ended last more ih =>
    rw [List.flatten_cons, ← List.append_assoc, split, List.append_assoc, List.mem_append,
      not_or] at plain
    have plainLines : ∀ line ∈ ls, Plain line := fun line inside =>
      ⟨ended line inside, fun zero => plain.1 ((mem_text (by decide)).mpr ⟨line, inside, zero⟩)⟩
    have positive := List.length_pos_iff.mpr nonempty
    have size := congrArg List.length split
    rw [List.length_append, List.length_append] at size
    rw [grep_read List.not_mem_nil nonempty room split plainLines last (by omega), selected_nil]
    by_cases endless : ls = []
    · subst endless
      obtain ⟨output, runs, bound, _⟩ := ih List.not_mem_nil (fun zero =>
        plain.2 (List.mem_append_right rest zero)) (written ++ text [])
      simp only [text, List.flatMap_nil, List.append_nil, if_true, List.length_nil] at runs bound ⊢
      refine ⟨output, runs, ?_, fun _ => ?_⟩ <;> rw [List.flatten_cons,
        List.length_append] <;> omega
    · rw [if_neg endless] at ih ⊢
      obtain ⟨output, runs, bound, less⟩ := ih last plain.2 (written ++ text ls)
      rw [List.length_append] at bound less
      refine ⟨output, runs, ?_, ?_⟩
      · grind
      · rintro ⟨bad, inside, bare⟩
        rw [List.flatten_cons, List.length_append]
        rcases List.mem_cons.mp inside with rfl | later
        · -- the lines of this `read` have ended in the buffer, which had no newline before it
          have newline : 10 ∈ buf ++ bad := by grind [List.mem_append_left, newline_mem_text]
          exact ((List.mem_append.mp newline).elim unfinished bare).elim
        · have := less ⟨bad, later, bare⟩
          omega

theorem Fits.not_grep_lines (fits : Fits [] reads) (plain : ∀ line ∈ lines, Plain line)
    (input : reads.flatten = text lines) (missing : ∃ chunk ∈ reads, 10 ∉ chunk) :
    ¬ ∃ bound, ∀ depth > bound, grep depth [] reads [] [] = some (text (selected [] lines)) := by
  rintro ⟨bound, runs⟩
  have clear : 0 ∉ [] ++ reads.flatten := by
    rw [List.nil_append, input, mem_text (by decide)]
    rintro ⟨line, inside, zero⟩
    exact (plain line inside).2 zero
  have deep : 1025 < bound + 1026 := by omega
  obtain ⟨output, loses, _, less⟩ := fits.grep_loses deep List.not_mem_nil clear []
  rw [runs _ (by omega), Option.some.injEq, selected_nil, ← input] at loses
  have shorter := less missing
  rw [← loses, List.length_nil, Nat.zero_add] at shorter
  exact Nat.lt_irrefl _ shorter

end Reading

/-- Whatever the pattern, the output is the lines that match exactly when every `read` returns
the end of a line. -/
theorem grep_lines_iff (lines reads : List (List UInt8)) (plain : ∀ line ∈ lines, Plain line)
    (input : reads.flatten = text lines) (fits : Fits [] reads) :
    (∀ pattern, 0 ∉ pattern → ∃ bound, ∀ depth > bound,
      grep depth pattern reads [] [] = some (text (selected pattern lines))) ↔ ∀ chunk ∈ reads,
        10 ∈ chunk := by
  constructor
  · intro exact
    by_contra missing
    push Not at missing
    exact fits.not_grep_lines plain input missing (exact [] List.not_mem_nil)
  · intro ends pattern re
    refine ⟨pattern.length + 1025, fun depth deep => ?_⟩
    rw [fits.grep_lines re deep List.not_mem_nil plain input ends, List.nil_append]

/-- The line `ab` in two reads: the first is thrown away. -/
theorem grep_lines_torn :
    ¬ ∀ (lines reads : List (List UInt8)), (∀ line ∈ lines, Plain line ∧ line.length < 1023) →
      reads.flatten = text lines → Fits [] reads →
      ∀ pattern, 0 ∉ pattern → ∃ bound, ∀ depth > bound,
        grep depth pattern reads [] [] = some (text (selected pattern lines)) := by
  intro exact
  have plain : ∀ line ∈ [[97, 98]], Plain line ∧ line.length < 1023 := by
    intro line inside
    rw [List.mem_singleton.mp inside]
    exact ⟨⟨by decide, by decide⟩, by decide⟩
  have second : Fits [] [[98, 10]] :=
    .read (by decide) (by decide) (show [] ++ [98, 10] = text [[98]] ++ [] from rfl) (by decide)
      (by decide) .done
  have fits : Fits [] [[97], [98, 10]] :=
    .read (by decide) (by decide) (show [] ++ [97] = text [] ++ [97] from rfl)
      nofun (by decide) second
  exact fits.not_grep_lines (fun line inside => (plain line inside).1) rfl
    ⟨[97], by decide, by decide⟩
    (exact [[97, 98]] [[97], [98, 10]] plain rfl fits [] List.not_mem_nil)

/-- Three lines in two reads, each of which ends with a line. -/
theorem grep_lines_whole : ∃ bound, ∀ depth > bound,
    grep depth [98] [[97, 98, 10, 99, 10], [100, 10]] [] [] =
      some (text (selected [98] [[97, 98], [99], [100]])) := by
  have plain : ∀ line ∈ [[97, 98], [99], [100]], Plain line := by simp [Plain]
  have second : Fits [] [[100, 10]] :=
    .read (by decide) (by decide) (show [] ++ [100, 10] = text [[100]] ++ [] from rfl) (by decide)
      (by decide) .done
  have fits : Fits [] [[97, 98, 10, 99, 10], [100, 10]] :=
    .read (by decide) (by decide)
      (show [] ++ [97, 98, 10, 99, 10] = text [[97, 98], [99]] ++ [] from rfl) (by decide)
      (by decide) second
  have ends : ∀ chunk ∈ [[97, 98, 10, 99, 10], [100, (10 : UInt8)]], 10 ∈ chunk := by decide
  exact (grep_lines_iff _ [[97, 98, 10, 99, 10], [100, 10]] plain rfl fits).mpr ends [98]
    (by decide)

end Xv6.Grep
