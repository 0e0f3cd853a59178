import Xv6.Shell.Lexer

/- The parser of the shell accepts what its grammar can write, and returns what was written. -/
namespace Xv6.Shell

open Exec

section Standing

variable {buf : Ptr} {cmd : Cmd Span} {sub : Cmd (List UInt8)} {nuls : List Nat} {span : Span}
  {w : List UInt8}

structure RedirAt (buf : Ptr) (r : Redir Span) (d : Redirection) : Prop where
  file : WordAt buf r.file d.redir.file
  mode : r.mode = d.redir.mode
  fd : r.fd = d.redir.fd

/-- The command of the parser, whose words are still places in the line. -/
inductive Stands (buf : Ptr) : Cmd Span → Cmd (List UInt8) → Prop where
  | exec {argv : List Span} {words : List (List UInt8)}
      (same : List.Forall₂ (WordAt buf) argv words) : Stands buf (.exec argv) (.exec words)
  | redir {cmd : Cmd Span} {sub : Cmd (List UInt8)} {file : Span} {w : List UInt8} {mode : Int}
      {fd : Nat} (inner : Stands buf cmd sub) (same : WordAt buf file w) :
      Stands buf (.redir cmd file mode fd) (.redir sub w mode fd)
  | pipe {left right : Cmd Span} {first second : Cmd (List UInt8)} (before : Stands buf left first)
      (behind : Stands buf right second) : Stands buf (.pipe left right) (.pipe first second)
  | list {left right : Cmd Span} {first second : Cmd (List UInt8)} (before : Stands buf left first)
      (behind : Stands buf right second) : Stands buf (.list left right) (.list first second)
  | back {cmd : Cmd Span} {sub : Cmd (List UInt8)} (inner : Stands buf cmd sub) :
      Stands buf (.back cmd) (.back sub)

theorem Stands.redirected {rs : List (Redir Span)} {ds : List Redirection}
    (stands : Stands buf cmd sub) (same : List.Forall₂ (RedirAt buf) rs ds) :
    Stands buf (rs.foldl redircmd cmd) (redirected sub ds) := by
  induction same generalizing cmd sub with
  | nil => exact stands
  | cons here _ ih =>
    apply ih
    simp only [redircmd, here.mode, here.fd]
    exact stands.redir here.file

/-- A NUL that ends a word is in no word. -/
def AtEnds (buf : Ptr) (nuls : List Nat) : Prop :=
  ∀ n ∈ nuls, ∃ e, e <:+ buf ∧ e.length = n ∧ Ends e

theorem WordAt.text (word : WordAt buf span w)
    (ended : span.eq.length ∈ nuls) (atEnds : AtEnds buf nuls) : text nuls span.q = w := by
  obtain ⟨line, starts, inside, -⟩ := word
  rw [starts] at line ⊢
  clear starts
  induction w with
  | nil =>
    cases split : span.eq with
    | nil => rfl
    | cons c rest =>
      grind [List.length_cons, Shell.text]
  | cons c w ih =>
    have notHere : (w ++ span.eq).length + 1 ∉ nuls := by
      intro here
      obtain ⟨e, onLine, long, ends⟩ := atEnds _ here
      have same : e = c :: (w ++ span.eq) := by
        have both := List.suffix_of_suffix_length_le onLine line (by simp [long])
        exact both.eq_of_length (by simp [long])
      have stopped := ends c (by rw [same]; rfl)
      grind
    grind [Shell.text, List.suffix_cons, List.IsSuffix.trans, List.mem_cons_of_mem]

theorem WordAt.atEnd (word : WordAt buf span w) :
    ∃ e, e <:+ buf ∧ e.length = span.eq.length ∧ Ends e := by
  refine ⟨span.eq, ?_, rfl, word.ends⟩
  have inside : span.eq <:+ span.q := by
    rw [word.starts]
    exact List.suffix_append w span.eq
  exact inside.trans word.line

theorem Stands.atEnds (stands : Stands buf cmd sub) : AtEnds buf (nulterminate cmd) := by
  have both : ∀ {xs ys : List Nat}, AtEnds buf xs → AtEnds buf ys → AtEnds buf (xs ++ ys) :=
    fun first second n inside => (List.mem_append.mp inside).elim (first n) (second n)
  induction stands with
  | exec same =>
    induction same with
    | nil => exact nofun
    | cons word _ ih =>
      intro n inside
      rcases List.mem_cons.mp inside with rfl | later
      · exact word.atEnd
      · exact ih n later
  | redir inner word ih =>
    apply both ih
    intro n inside
    obtain rfl := List.mem_singleton.mp inside
    exact word.atEnd
  | pipe _ _ first second => exact both first second
  | list _ _ first second => exact both first second
  | back _ ih => exact ih

theorem Stands.map_eq {f : Span → List UInt8} (stands : Stands buf cmd sub)
    (written : nulterminate cmd ⊆ nuls)
    (reads : ∀ {span w}, WordAt buf span w → span.eq.length ∈ nuls → f span = w) :
    cmd.map f = sub := by
  induction stands with
  | exec same =>
    simp only [Cmd.map, Cmd.exec.injEq]
    induction same with
    | nil => rfl
    | cons here _ ih =>
      rw [List.map_cons, reads here (written List.mem_cons_self), ih fun n inside =>
        written (List.mem_cons_of_mem _ inside)]
  | redir inner word ih =>
    grind [nulterminate, List.append_subset, Cmd.map, List.mem_cons_self]
  | pipe _ _ first second | list _ _ first second =>
    grind [nulterminate, List.append_subset, Cmd.map]
  | back _ ih => rw [Cmd.map, ih written]

/-- Once the NULs are written, the words are the strings that were read. -/
theorem Stands.map_text (stands : Stands buf cmd sub) :
    cmd.map (fun word => text (nulterminate cmd) word.q) = sub :=
  stands.map_eq (List.Subset.refl _) fun word ended => word.text ended stands.atEnds

end Standing

section Soundness

/-- An error stops the shell; the parser never runs on for ever. -/
def errors : Stops := ⟨fun _ => True, False⟩

variable {α : Type} {post : α → Ptr → Prop} {buf s : Ptr}

/-- The token that was seen is taken. -/
theorem take_sound {allowed : Stops} {next : Token × Span → Exec Ptr α} {y : Lexeme}
    (line : s <:+ buf) (noNul : 0 ∉ buf) (single : y.isSingle)
    (seen : (skip s).head? = y.text.head?)
    (holds : ∀ span after, Reads s [y] after → after.length < s.length →
      Spec allowed (next (y.token, span)) after post) :
    Spec allowed (gettoken >>= next) (skip s) post := by
  have onLine : skip s <:+ buf := (skip_suffix s).trans line
  apply gettoken_sound onLine noNul
  · intro span nothing
    obtain ⟨c, rest, split, -⟩ := y.begins
    grind [skip_skip]
  · intro x span after first reads shorter _
    rw [skip_skip, seen] at first
    obtain rfl := Lexeme.eq_of_first single first.symm
    exact holds span after ((Reads.skip s).trans reads)
      (Nat.lt_of_lt_of_le shorter (skip_suffix s).length_le)

/-- What a part of the parser makes of the line: the lexemes of a tree, and the tree's command. -/
structure Parsed (buf s : Ptr) (xs : List Lexeme) (cmd : Cmd (List UInt8)) (parsed : Cmd Span)
    (after : Ptr) : Prop where
  reads : Reads s xs after
  stands : Stands buf parsed cmd

variable (noNul : 0 ∉ buf)

include noNul

theorem parseredirs_sound (fuel : Nat) (line : s <:+ buf) (enough : s.length + 1 ≤ fuel) :
    Spec errors (parseredirs fuel) s fun rs after => ∃ ds : List Redirection,
      Reads s (ds.flatMap Redirection.lexemes) after ∧ List.Forall₂ (RedirAt buf) rs ds := by
  induction fuel generalizing s with
  | zero => omega
  | succ fuel ih =>
    have onLine : skip s <:+ buf := (skip_suffix s).trans line
    apply peek_sound
    · intro c symbol seen
      apply gettoken_sound onLine noNul
      · grind [skip_skip]
      intro x _ middle first readsFirst shorter _
      rw [skip_skip, seen] at first
      obtain ⟨d, rfl⟩ := Lexeme.direction_of_first symbol first.symm
      apply gettoken_sound (readsFirst.suffix.trans onLine) noNul
      · exact fun _ _ => Spec.panic trivial
      intro y span after _ readsSecond fewer word
      cases y with
      | word w =>
        have reads := (Reads.skip s).trans (readsFirst.trans readsSecond)
        have left : after.length + 1 ≤ fuel := by
          have before := (skip_suffix s).length_le
          omega
        refine (ih (reads.suffix.trans line) left).bind ?_
        rintro rs final ⟨ds, readsRest, same⟩
        refine Spec.pure ⟨⟨d, w⟩ :: ds, reads.trans readsRest, .cons ?_ same⟩
        cases d <;> exact ⟨word w rfl, rfl, rfl⟩
      | direction d => cases d <;> exact Spec.panic trivial
      | _ => exact Spec.panic trivial
    · exact Spec.pure ⟨[], Reads.skip s, .nil⟩

theorem parseargs_sound (fuel argc : Nat) (line : s <:+ buf) (enough : s.length + 1 ≤ fuel)
    (few : argc ≤ MAXARGS - 1) :
    Spec errors (parseargs fuel argc) s fun r after => ∃ items : List Item,
      Reads s (items.flatMap Item.lexemes) after ∧ argc + (words items).length ≤ MAXARGS - 1 ∧
        List.Forall₂ (WordAt buf) r.1 ((words items).map Subtype.val) ∧
        List.Forall₂ (RedirAt buf) r.2 (redirs items) := by
  induction fuel generalizing s argc with
  | zero => omega
  | succ fuel ih =>
    have onLine : skip s <:+ buf := (skip_suffix s).trans line
    apply peek_sound
    · exact fun _ _ _ => Spec.pure ⟨[], Reads.skip s, few, .nil, .nil⟩
    apply gettoken_sound onLine noNul
    · intro span nothing
      rw [skip_skip] at nothing
      exact Spec.pure ⟨[], nothing ▸ Reads.skip s, few, .nil, .nil⟩
    intro x span middle _ readsWord shorter word
    cases x with
    | word w =>
      have reads := (Reads.skip s).trans readsWord
      have before := (skip_suffix s).length_le
      by_cases many : MAXARGS ≤ argc + 1
      · simp only [Lexeme.token, if_pos many]
        exact Spec.panic trivial
      simp only [Lexeme.token, if_neg many]
      refine (parseredirs_sound noNul fuel (reads.suffix.trans line) (by omega)).bind ?_
      rintro rs behind ⟨ds, readsRedirs, sameRedirs⟩
      have lessLeft := readsRedirs.suffix.length_le
      refine (ih (argc + 1) (readsRedirs.suffix.trans (reads.suffix.trans line)) (by omega)
        (by omega)).bind ?_
      rintro ⟨args, more⟩ after ⟨items, readsItems, count, sameWords, sameMore⟩
      refine Spec.pure ⟨.word w :: redirsThen ds items, ?_, ?_, ?_, ?_⟩
      · rw [List.flatMap_cons, lexemes_redirsThen]
        exact reads.trans (readsRedirs.trans readsItems)
      · change argc + ((words (redirsThen ds items)).length + 1) ≤ MAXARGS - 1
        rw [words_redirsThen]
        omega
      · change List.Forall₂ (WordAt buf) (span :: args)
          (w.1 :: (words (redirsThen ds items)).map Subtype.val)
        rw [words_redirsThen]
        exact .cons (word w rfl) sameWords
      · change List.Forall₂ (RedirAt buf) (rs ++ more) (redirs (redirsThen ds items))
        rw [redirs_redirsThen]
        exact List.rel_append sameRedirs sameMore
    | direction d => cases d <;> exact Spec.panic trivial
    | _ => exact Spec.panic trivial

theorem parsebacks_sound (fuel : Nat) {cmd : Cmd Span} {sub : Cmd (List UInt8)}
    (stands : Stands buf cmd sub) (line : s <:+ buf) (enough : s.length + 1 ≤ fuel) :
    Spec errors (parsebacks fuel cmd) s fun parsed after => ∃ n,
      Parsed buf s (List.replicate n .ampersand) (backs n sub) parsed after := by
  induction fuel generalizing s cmd sub with
  | zero => omega
  | succ fuel ih =>
    apply peek_sound
    · intro c symbol seen
      obtain rfl := List.mem_singleton.mp symbol
      apply take_sound (y := .ampersand) line noNul rfl seen
      intro _ middle reads shorter
      refine (ih stands.back (reads.suffix.trans line) (by omega)).mono ?_
      rintro parsed after ⟨n, rest⟩
      exact ⟨n + 1, reads.trans rest.reads, rest.stands⟩
    · exact Spec.pure ⟨0, Reads.skip s, stands⟩

mutual

theorem parseline_sound (fuel : Nat) (s : Ptr) (line : s <:+ buf)
    (enough : 4 * s.length + 4 ≤ fuel) :
    Spec errors (parseline fuel) s fun parsed after => ∃ t : Line,
      Parsed buf s t.lexemes t.cmd parsed after := by
  match fuel with
  | 0 => omega
  | fuel + 1 =>
    refine (parsepipe_sound fuel s line (by omega)).bind ?_
    rintro first middle ⟨pipe, piped⟩
    have pipedShort := piped.reads.suffix.length_le
    refine (parsebacks_sound noNul fuel piped.stands (piped.reads.suffix.trans line)
      (by omega)).bind ?_
    rintro cmd behind ⟨n, backed⟩
    have backedShort := backed.reads.suffix.length_le
    have reads := piped.reads.trans backed.reads
    apply peek_sound
    · intro c symbol seen
      obtain rfl := List.mem_singleton.mp symbol
      apply take_sound (y := .semicolon) (reads.suffix.trans line) noNul rfl seen
      intro _ next readsNext shorter
      refine (parseline_sound fuel next (readsNext.suffix.trans (reads.suffix.trans line))
        (by omega)).bind ?_
      rintro rest after ⟨more, parsed⟩
      refine Spec.pure ⟨.seq pipe n more, ?_, backed.stands.list parsed.stands⟩
      exact reads.trans (readsNext.trans parsed.reads)
    · refine Spec.pure ⟨.last pipe n, ?_, backed.stands⟩
      simpa [Line.lexemes] using reads.trans (Reads.skip behind)

theorem parsepipe_sound (fuel : Nat) (s : Ptr) (line : s <:+ buf)
    (enough : 4 * s.length + 3 ≤ fuel) :
    Spec errors (parsepipe fuel) s fun parsed after => ∃ t : Pipe,
      Parsed buf s t.lexemes t.cmd parsed after := by
  match fuel with
  | 0 => omega
  | fuel + 1 =>
    refine (parseexec_sound fuel s line (by omega)).bind ?_
    rintro cmd middle ⟨exec, first⟩
    have short := first.reads.suffix.length_le
    apply peek_sound
    · intro c symbol seen
      obtain rfl := List.mem_singleton.mp symbol
      apply take_sound (y := .bar) (first.reads.suffix.trans line) noNul rfl seen
      intro _ next readsNext shorter
      refine (parsepipe_sound fuel next (readsNext.suffix.trans (first.reads.suffix.trans line))
        (by omega)).bind ?_
      rintro rest after ⟨more, parsed⟩
      refine Spec.pure ⟨.into exec more, ?_, first.stands.pipe parsed.stands⟩
      exact first.reads.trans (readsNext.trans parsed.reads)
    · refine Spec.pure ⟨.last exec, ?_, first.stands⟩
      simpa [Pipe.lexemes] using first.reads.trans (Reads.skip middle)

theorem parseexec_sound (fuel : Nat) (s : Ptr) (line : s <:+ buf)
    (enough : 4 * s.length + 2 ≤ fuel) :
    Spec errors (parseexec fuel) s fun parsed after => ∃ t : Simple,
      Parsed buf s t.lexemes t.cmd parsed after := by
  match fuel with
  | 0 => omega
  | fuel + 1 =>
    have onLine : skip s <:+ buf := (skip_suffix s).trans line
    have short := (skip_suffix s).length_le
    apply peek_sound
    · intro _ _ _
      refine (parseblock_sound fuel (skip s) onLine (by omega)).mono ?_
      rintro parsed after ⟨t, done⟩
      exact ⟨t, (Reads.skip s).trans done.reads, done.stands⟩
    refine (parseredirs_sound noNul fuel onLine (by omega)).bind ?_
    rintro rs middle ⟨ds, readsRedirs, sameRedirs⟩
    have fewer := readsRedirs.suffix.length_le
    refine (parseargs_sound noNul fuel 0 (readsRedirs.suffix.trans onLine) (by omega)
      (by decide)).bind ?_
    rintro ⟨args, more⟩ after ⟨items, readsItems, count, sameWords, sameMore⟩
    refine Spec.pure ⟨.items ⟨redirsThen ds items, by simpa using count⟩, ?_, ?_⟩
    · rw [Simple.lexemes, lexemes_redirsThen]
      exact (Reads.skip s).trans (readsRedirs.trans readsItems)
    · change Stands buf _
        (redirected (.exec ((words (redirsThen ds items)).map Subtype.val))
        (redirs (redirsThen ds items)))
      rw [words_redirsThen, redirs_redirsThen]
      exact (Stands.exec sameWords).redirected (List.rel_append sameRedirs sameMore)

theorem parseblock_sound (fuel : Nat) (s : Ptr) (line : s <:+ buf)
    (enough : 4 * s.length + 1 ≤ fuel) :
    Spec errors (parseblock fuel) s fun parsed after => ∃ t : Simple,
      Parsed buf s t.lexemes t.cmd parsed after := by
  match fuel with
  | 0 => omega
  | fuel + 1 =>
    apply peek_sound
    · intro c symbol seen
      obtain rfl := List.mem_singleton.mp symbol
      apply take_sound (y := .opening) line noNul rfl seen
      intro _ inner readsOpening shorter
      refine (parseline_sound fuel inner (readsOpening.suffix.trans line) (by omega)).bind ?_
      rintro cmd middle ⟨t, parsed⟩
      have readsInner := readsOpening.trans parsed.reads
      have innerShort := parsed.reads.suffix.length_le
      apply peek_sound
      · intro c symbol seen
        obtain rfl := List.mem_singleton.mp symbol
        apply take_sound (y := .closing) (readsInner.suffix.trans line) noNul rfl seen
        intro _ behind readsClosing fewer
        have readsBlock := readsInner.trans readsClosing
        refine (parseredirs_sound noNul fuel (readsBlock.suffix.trans line) (by omega)).bind ?_
        rintro rs after ⟨ds, readsRedirs, same⟩
        refine Spec.pure ⟨.block t ds, ?_, parsed.stands.redirected same⟩
        simpa [Simple.lexemes] using readsBlock.trans readsRedirs
      · exact Spec.panic trivial
    · exact Spec.panic trivial

end

end Soundness

section Completeness

variable {α : Type} {post : α → Ptr → Prop} {allowed : Stops} {buf s : Ptr} {more : List Lexeme}
  {toks : List Char} {items : List Item} {among : List Lexeme}

/-- What the text can go on with. -/
def Follow (among : List Lexeme) (more : List Lexeme) : Prop := ∀ x, more.head? = some x → x ∈ among

/-- What `peek` answers when this lexeme is next. -/
def Lexeme.seen (toks : List Char) (x : Lexeme) : Bool :=
  x.text.head?.any fun c => c ∈ toks.map Char.toUInt8

/-- What `peek` answers here. -/
def seenNext (toks : List Char) (xs : List Lexeme) : Bool := xs.head?.any (Lexeme.seen toks)

theorem Lexeme.word_not_seen (symbol : (toks.map Char.toUInt8).all (symbols.contains ·) = true)
    (w : Word) : (Lexeme.word w).seen toks = false := by
  obtain ⟨c, rest, split, inside⟩ := w.cons
  have first : (Lexeme.word w).text.head? = some c := by
    rw [Lexeme.text, split]
    rfl
  rw [Lexeme.seen, first]
  refine decide_eq_false fun member => ?_
  have isSymbol := List.contains_iff_mem.mp (List.all_eq_true.mp symbol c member)
  rw [symbol_not_wordChar isSymbol] at inside
  cases inside

theorem Follow.not_seen (follow : Follow among more)
    (no : ∀ x ∈ among, x.seen toks = false) : seenNext toks more = false := by
  cases more with
  | nil => rfl
  | cons x more => exact no x (follow x rfl)

theorem Follow.cons {x : Lexeme} (inside : x ∈ among) : Follow among (x :: more) := by
  intro y first
  obtain rfl : x = y := by simpa using first
  exact inside

/-- The lexemes that can follow a pipe, and those that can follow a command of a pipe. -/
def afterPipe : List Lexeme := [.ampersand, .semicolon, .closing]
def afterExec : List Lexeme := .bar :: afterPipe

theorem Follow.backs (n : Nat) (follow : Follow afterPipe more) :
    Follow afterPipe (List.replicate n .ampersand ++ more) := by
  cases n with
  | zero => exact follow
  | succ n => exact .cons List.mem_cons_self

theorem peek_seen {next : Bool → Exec Ptr α} {xs : List Lexeme} {answer : Bool}
    (prints : Prints xs s) (seen : seenNext toks xs = answer)
    (holds : Prints xs (skip s) → Spec allowed (next answer) (skip s) post) :
    Spec allowed (peek toks >>= next) s post := by
  apply peek_complete prints
  have same : ((xs.head?.bind fun x => x.text.head?).any fun c => c ∈ toks.map Char.toUInt8) =
    answer := by
    rw [← seen]
    cases xs <;> rfl
  rw [same]
  exact holds prints.skip

/-- What a part of the parser makes of a text that was written for it. -/
structure Returns (buf s : Ptr) (more : List Lexeme) (cmd : Cmd (List UInt8)) (parsed : Cmd Span)
    (after : Ptr) : Prop where
  stands : Stands buf parsed cmd
  prints : Prints more after
  suffix : after <:+ s

theorem parseredirs_complete (fuel : Nat) {ds : List Redirection} (line : s <:+ buf)
    (enough : s.length + 1 ≤ fuel) (prints : Prints (ds.flatMap Redirection.lexemes ++ more) s)
    (stop : seenNext ['<', '>'] more = false) :
    Spec Stops.nothing (parseredirs fuel) s fun rs after =>
      List.Forall₂ (RedirAt buf) rs ds ∧ Prints more after ∧ after <:+ s := by
  induction ds generalizing s fuel with
  | nil =>
    obtain ⟨fuel, rfl⟩ : ∃ n, fuel = n + 1 := ⟨fuel - 1, by omega⟩
    apply peek_seen prints stop
    intro rest
    exact Spec.pure ⟨.nil, rest, skip_suffix s⟩
  | cons d ds ih =>
    obtain ⟨fuel, rfl⟩ : ∃ n, fuel = n + 1 := ⟨fuel - 1, by omega⟩
    have seen : seenNext ['<', '>'] ((d :: ds).flatMap Redirection.lexemes ++ more) = true := by
      obtain ⟨direction, file⟩ := d
      cases direction <;> rfl
    apply peek_seen prints seen
    intro here
    have onLine : skip s <:+ buf := (skip_suffix s).trans line
    apply gettoken_complete onLine here
    · exact fun _ => ⟨d.file, _, rfl⟩
    intro _ middle printsFile first shorter _
    apply gettoken_complete (first.trans onLine) printsFile nofun
    intro span after printsRest second fewer word
    have left : after.length + 1 ≤ fuel := by
      have before := (skip_suffix s).length_le
      omega
    refine (ih fuel (second.trans (first.trans onLine)) left printsRest).bind ?_
    rintro rs final ⟨same, printsMore, suffix⟩
    refine Spec.pure ⟨.cons ?_ same, printsMore,
      suffix.trans (second.trans (first.trans (skip_suffix s)))⟩
    obtain ⟨direction, file⟩ := d
    cases direction <;> exact ⟨word file rfl, rfl, rfl⟩

theorem parsebacks_complete (fuel n : Nat) {cmd : Cmd Span} {sub : Cmd (List UInt8)}
    (stands : Stands buf cmd sub) (line : s <:+ buf) (enough : s.length + 1 ≤ fuel)
    (prints : Prints (List.replicate n .ampersand ++ more) s) (stop : seenNext ['&'] more = false) :
    Spec Stops.nothing (parsebacks fuel cmd) s (Returns buf s more (backs n sub)) := by
  induction n generalizing s fuel cmd sub with
  | zero =>
    obtain ⟨fuel, rfl⟩ : ∃ n, fuel = n + 1 := ⟨fuel - 1, by omega⟩
    apply peek_seen prints stop
    intro rest
    exact Spec.pure ⟨stands, rest, skip_suffix s⟩
  | succ n ih =>
    obtain ⟨fuel, rfl⟩ : ∃ n, fuel = n + 1 := ⟨fuel - 1, by omega⟩
    apply peek_seen prints (show seenNext ['&'] _ = true from rfl)
    intro here
    apply gettoken_complete ((skip_suffix s).trans line) here nofun
    intro _ middle printsRest first shorter _
    have suffix := first.trans (skip_suffix s)
    have before := (skip_suffix s).length_le
    refine (ih fuel stands.back (suffix.trans line) (by omega) printsRest).mono ?_
    intro parsed after returns
    exact ⟨returns.stands, returns.prints, returns.suffix.trans suffix⟩

/-- A mix of words and redirections begins with redirections, and goes on with a word if at all. -/
theorem exists_redirsThen (items : List Item) :
    ∃ ds rest, items = redirsThen ds rest ∧ (rest = [] ∨ ∃ w tail, rest = .word w :: tail) := by
  induction items with
  | nil => exact ⟨[], [], rfl, Or.inl rfl⟩
  | cons item items ih =>
    cases item with
    | word w => exact ⟨[], .word w :: items, rfl, Or.inr ⟨w, items, rfl⟩⟩
    | redir d =>
      obtain ⟨ds, rest, split, shape⟩ := ih
      exact ⟨d :: ds, rest, congrArg _ split, shape⟩

theorem seen_after_items (symbol : (toks.map Char.toUInt8).all (symbols.contains ·) = true)
    (shape : items = [] ∨ ∃ w tail, items = .word w :: tail) (follow : Follow afterExec more)
    (no : ∀ x ∈ afterExec, x.seen toks = false) :
    seenNext toks (items.flatMap Item.lexemes ++ more) = false := by
  rcases shape with rfl | ⟨w, tail, rfl⟩
  · exact follow.not_seen no
  · exact Lexeme.word_not_seen symbol w

theorem redirs_stop (shape : items = [] ∨ ∃ w tail, items = .word w :: tail)
    (follow : Follow afterExec more) :
    seenNext ['<', '>'] (items.flatMap Item.lexemes ++ more) = false :=
  seen_after_items (by decide) shape follow (by decide)

theorem parseargs_complete (fuel argc : Nat) (line : s <:+ buf) (enough : s.length + 1 ≤ fuel)
    (few : argc + (words items).length ≤ MAXARGS - 1)
    (shape : items = [] ∨ ∃ w tail, items = .word w :: tail)
    (prints : Prints (items.flatMap Item.lexemes ++ more) s) (follow : Follow afterExec more) :
    Spec Stops.nothing (parseargs fuel argc) s fun r after =>
      List.Forall₂ (WordAt buf) r.1 ((words items).map Subtype.val) ∧
        List.Forall₂ (RedirAt buf) r.2 (redirs items) ∧ Prints more after ∧ after <:+ s := by
  induction fuel generalizing s argc items with
  | zero => omega
  | succ fuel ih =>
    have onLine : skip s <:+ buf := (skip_suffix s).trans line
    rcases shape with rfl | ⟨w, tail, rfl⟩
    · cases more with
      | nil =>
        apply peek_seen prints rfl
        intro nothing
        apply gettoken_end nothing
        exact fun _ => Spec.pure ⟨.nil, .nil, .nil blank_nil, List.nil_suffix⟩
      | cons x more =>
        have seen : seenNext ['|', ')', '&', ';'] (x :: more) = true := by
          have among := follow x rfl
          simp only [afterExec, afterPipe, List.mem_cons, List.not_mem_nil, or_false] at among
          rcases among with rfl | rfl | rfl | rfl <;> rfl
        apply peek_seen prints seen
        intro rest
        exact Spec.pure ⟨.nil, .nil, rest, skip_suffix s⟩
    · apply peek_seen prints (Lexeme.word_not_seen (by decide) w)
      intro here
      apply gettoken_complete onLine here nofun
      intro span middle printsTail first shorter word
      obtain ⟨ds, rest, rfl, restShape⟩ := exists_redirsThen tail
      have before := (skip_suffix s).length_le
      have count : argc + ((words (redirsThen ds rest)).length + 1) ≤ MAXARGS - 1 := few
      rw [words_redirsThen] at count
      have fits : ¬MAXARGS ≤ argc + 1 := by omega
      simp only [Lexeme.token, if_neg fits]
      have suffix := first.trans (skip_suffix s)
      have printsBoth : Prints ((redirsThen ds rest).flatMap Item.lexemes ++ more) middle :=
        printsTail
      rw [lexemes_redirsThen, List.append_assoc] at printsBoth
      have stop := redirs_stop restShape follow
      refine (parseredirs_complete fuel (suffix.trans line) (by omega) printsBoth stop).bind ?_
      rintro rs behind ⟨sameRedirs, printsRest, second⟩
      have fewer := second.length_le
      refine (ih (argc + 1) (second.trans (suffix.trans line)) (by omega) (by omega) restShape
        printsRest).bind ?_
      rintro ⟨args, others⟩ after ⟨sameWords, sameOthers, printsMore, third⟩
      refine Spec.pure ⟨?_, ?_, printsMore, third.trans (second.trans suffix)⟩
      · change List.Forall₂ (WordAt buf) (span :: args)
          (w.1 :: (words (redirsThen ds rest)).map Subtype.val)
        rw [words_redirsThen]
        exact .cons (word w rfl) sameWords
      · change List.Forall₂ (RedirAt buf) (rs ++ others) (redirs (redirsThen ds rest))
        rw [redirs_redirsThen]
        exact List.rel_append sameRedirs sameOthers

theorem parseblock_complete {t : Line} (ds : List Redirection)
    (complete : ∀ (fuel : Nat) (s : Ptr) (more : List Lexeme), s <:+ buf → 4 * s.length + 4 ≤ fuel →
      Prints (t.lexemes ++ more) s → Follow [.closing] more →
      Spec Stops.nothing (parseline fuel) s (Returns buf s more t.cmd))
    (fuel : Nat) (line : s <:+ buf) (enough : 4 * s.length + 1 ≤ fuel)
    (prints : Prints ((Simple.block t ds).lexemes ++ more) s) (follow : Follow afterExec more) :
    Spec Stops.nothing (parseblock fuel) s (Returns buf s more (Simple.block t ds).cmd) := by
  obtain ⟨fuel, rfl⟩ : ∃ n, fuel = n + 1 := ⟨fuel - 1, by omega⟩
  have onLine : skip s <:+ buf := (skip_suffix s).trans line
  have short := (skip_suffix s).length_le
  apply peek_seen prints (show seenNext ['('] _ = true from rfl)
  intro here
  apply gettoken_complete onLine here nofun
  intro _ inner printsInner opened shorter _
  have splitInner : Prints (t.lexemes ++ (.closing :: (ds.flatMap Redirection.lexemes ++ more)))
    inner := by
    simpa using printsInner
  refine (complete fuel inner _ (opened.trans onLine) (by omega) splitInner
    (.cons List.mem_cons_self)).bind ?_
  intro cmd middle parsed
  have parsedShort := parsed.suffix.length_le
  have suffix := (skip_suffix middle).trans (parsed.suffix.trans opened)
  have suffixShort := (skip_suffix middle).length_le
  apply peek_seen parsed.prints (show seenNext [')'] _ = true from rfl)
  intro closing
  apply gettoken_complete (suffix.trans onLine) closing nofun
  intro _ behind printsRedirs closed fewer _
  have onBehind : behind <:+ buf := closed.trans (suffix.trans onLine)
  refine (parseredirs_complete fuel onBehind (by omega) printsRedirs
    (follow.not_seen (by decide))).bind ?_
  rintro rs after ⟨same, printsMore, last⟩
  refine Spec.pure ⟨parsed.stands.redirected same, printsMore, ?_⟩
  exact last.trans (closed.trans (suffix.trans (skip_suffix s)))

mutual

theorem parseline_complete (t : Line) (fuel : Nat) (s : Ptr) (more : List Lexeme) (line : s <:+ buf)
    (enough : 4 * s.length + 4 ≤ fuel) (prints : Prints (t.lexemes ++ more) s)
    (follow : Follow [.closing] more) :
    Spec Stops.nothing (parseline fuel) s (Returns buf s more t.cmd) := by
  obtain ⟨fuel, rfl⟩ : ∃ n, fuel = n + 1 := ⟨fuel - 1, by omega⟩
  match t with
  | .last pipe n =>
    rw [Line.lexemes, List.append_assoc] at prints
    refine (parsepipe_complete pipe fuel s _ line (by omega) prints ?_).bind ?_
    · exact Follow.backs n fun x next => List.mem_cons_of_mem _
        (List.mem_cons_of_mem _ (follow x next))
    intro first middle piped
    have short := piped.suffix.length_le
    refine (parsebacks_complete fuel n piped.stands (piped.suffix.trans line)
      (by omega) piped.prints (follow.not_seen (by decide))).bind ?_
    intro cmd behind backed
    apply peek_seen backed.prints (follow.not_seen (by decide))
    intro rest
    exact Spec.pure ⟨backed.stands, rest, (skip_suffix behind).trans
      (backed.suffix.trans piped.suffix)⟩
  | .seq pipe n after =>
    rw [Line.lexemes, List.append_assoc, List.append_assoc] at prints
    refine (parsepipe_complete pipe fuel s _ line (by omega) prints ?_).bind ?_
    · exact Follow.backs n (.cons (List.mem_cons_of_mem _ List.mem_cons_self))
    intro first middle piped
    have short := piped.suffix.length_le
    refine (parsebacks_complete fuel n piped.stands (piped.suffix.trans line)
      (by omega) piped.prints rfl).bind ?_
    intro cmd behind backed
    have suffix := (skip_suffix behind).trans (backed.suffix.trans piped.suffix)
    apply peek_seen backed.prints (show seenNext [';'] _ = true from rfl)
    intro here
    apply gettoken_complete (suffix.trans line) here nofun
    intro _ next printsNext taken shorter _
    have shortAll := suffix.length_le
    refine (parseline_complete after fuel next more (taken.trans (suffix.trans line))
      (by omega) printsNext follow).bind ?_
    intro rest final parsed
    exact Spec.pure ⟨backed.stands.list parsed.stands, parsed.prints,
      parsed.suffix.trans (taken.trans suffix)⟩

theorem parsepipe_complete (t : Pipe) (fuel : Nat) (s : Ptr) (more : List Lexeme) (line : s <:+ buf)
    (enough : 4 * s.length + 3 ≤ fuel) (prints : Prints (t.lexemes ++ more) s)
    (follow : Follow afterPipe more) :
    Spec Stops.nothing (parsepipe fuel) s (Returns buf s more t.cmd) := by
  obtain ⟨fuel, rfl⟩ : ∃ n, fuel = n + 1 := ⟨fuel - 1, by omega⟩
  match t with
  | .last exec =>
    have among : Follow afterExec more := fun x next => List.mem_cons_of_mem _ (follow x next)
    refine (parseexec_complete exec fuel s more line (by omega) prints among).bind ?_
    intro cmd middle first
    apply peek_seen first.prints (follow.not_seen (by decide))
    intro rest
    exact Spec.pure ⟨first.stands, rest, (skip_suffix middle).trans first.suffix⟩
  | .into exec after =>
    rw [Pipe.lexemes, List.append_assoc] at prints
    refine (parseexec_complete exec fuel s _ line (by omega) prints ?_).bind ?_
    · exact .cons List.mem_cons_self
    intro cmd middle first
    have suffix := (skip_suffix middle).trans first.suffix
    apply peek_seen first.prints (show seenNext ['|'] _ = true from rfl)
    intro here
    apply gettoken_complete (suffix.trans line) here nofun
    intro _ next printsNext taken shorter _
    have short := suffix.length_le
    refine (parsepipe_complete after fuel next more (taken.trans (suffix.trans line))
      (by omega) printsNext follow).bind ?_
    intro rest final parsed
    exact Spec.pure ⟨first.stands.pipe parsed.stands, parsed.prints,
      parsed.suffix.trans (taken.trans suffix)⟩

theorem parseexec_complete (t : Simple) (fuel : Nat) (s : Ptr) (more : List Lexeme)
    (line : s <:+ buf) (enough : 4 * s.length + 2 ≤ fuel) (prints : Prints (t.lexemes ++ more) s)
    (follow : Follow afterExec more) :
    Spec Stops.nothing (parseexec fuel) s (Returns buf s more t.cmd) := by
  obtain ⟨fuel, rfl⟩ : ∃ n, fuel = n + 1 := ⟨fuel - 1, by omega⟩
  have onLine : skip s <:+ buf := (skip_suffix s).trans line
  have short := (skip_suffix s).length_le
  match t with
  | .block inner ds =>
    apply peek_seen prints (show seenNext ['('] _ = true from rfl)
    intro here
    refine (parseblock_complete ds (parseline_complete inner) fuel onLine (by omega) here
      follow).mono ?_
    intro parsed after returns
    exact ⟨returns.stands, returns.prints, returns.suffix.trans (skip_suffix s)⟩
  | .items ⟨items, few⟩ =>
    obtain ⟨ds, rest, rfl, shape⟩ := exists_redirsThen items
    have printsBoth : Prints ((redirsThen ds rest).flatMap Item.lexemes ++ more) s := prints
    rw [lexemes_redirsThen, List.append_assoc] at printsBoth
    have noBlock : seenNext ['('] (ds.flatMap Redirection.lexemes ++
      (rest.flatMap Item.lexemes ++ more)) = false := by
      cases ds with
      | nil => exact seen_after_items (by decide) shape follow (by decide)
      | cons d ds =>
        obtain ⟨direction, file⟩ := d
        cases direction <;> rfl
    apply peek_seen printsBoth noBlock
    intro here
    refine (parseredirs_complete fuel onLine (by omega) here (redirs_stop shape follow)).bind ?_
    rintro rs middle ⟨sameRedirs, printsRest, second⟩
    have fewer := second.length_le
    rw [words_redirsThen] at few
    refine (parseargs_complete fuel 0 (second.trans onLine) (by omega) (by omega) shape printsRest
      follow).bind ?_
    rintro ⟨args, others⟩ after ⟨sameWords, sameOthers, printsMore, third⟩
    refine Spec.pure ⟨?_, printsMore, third.trans (second.trans (skip_suffix s))⟩
    change Stands buf _
      (redirected (.exec ((words (redirsThen ds rest)).map Subtype.val))
      (redirs (redirsThen ds rest)))
    rw [words_redirsThen, redirs_redirsThen]
    exact (Stands.exec sameWords).redirected (List.rel_append sameRedirs sameOthers)

end

end Completeness

section Whole

variable {s : Ptr}

/-- What `parsecmd` does to the rest of the line, and to the command. -/
def finish (cmd : Cmd Span) : Exec Ptr (Cmd (List UInt8)) := do
  let _ ← peek []
  let rest ← get
  if rest ≠ [] then Exec.panic "syntax"
  else return cmd.map fun word : Span => text (nulterminate cmd) word.q

theorem parsecmd_eq (s : Ptr) :
    parsecmd s = ((parseline (4 * s.length + 8) >>= finish) s).map Prod.fst := rfl

theorem parsecmd_returns (t : Line) (prints : Prints t.lexemes s) : parsecmd s = .ok t.cmd := by
  have whole : Prints (t.lexemes ++ []) s := by simpa using prints
  have parsed := parseline_complete t (4 * s.length + 8) s [] (List.suffix_refl s)
    (by omega) whole nofun
  have spec : Spec Stops.nothing (parseline (4 * s.length + 8) >>= finish) s fun cmd _ =>
    cmd = t.cmd := by
    refine parsed.bind ?_
    intro cmd after returns
    apply peek_seen returns.prints rfl
    intro nothing
    refine Spec.bind_get ?_
    rw [returns.prints.nil_skip, if_neg (by simp)]
    exact Spec.pure (returns.stands.map_text)
  obtain ⟨cmd, after, ran, rfl⟩ := spec.total
  rw [parsecmd_eq, ran]
  rfl

theorem finish_sound (noNul : 0 ∉ s) :
    Spec errors (parseline (4 * s.length + 8) >>= finish) s fun cmd _ => ∃ t : Line,
      Prints t.lexemes s ∧ t.cmd = cmd := by
  refine (parseline_sound noNul (4 * s.length + 8) s (List.suffix_refl s) (by omega)).bind ?_
  rintro cmd after ⟨t, parsed⟩
  apply peek_sound
  · exact fun c inside => absurd inside List.not_mem_nil
  refine Spec.bind_get ?_
  by_cases rest : skip after = []
  · rw [if_neg (by simp [rest])]
    refine Spec.pure ⟨t, ?_, parsed.stands.map_text.symm⟩
    have ended : Prints [] after := .of_skip (rest ▸ .nil blank_nil)
    simpa using parsed.reads.prints ended
  · rw [if_pos rest]
    exact Spec.panic trivial

/-- On every line the parser ends: with the command of the tree that the line is a printing of, or,
if it is none of any tree, with an error. -/
theorem parsecmd_round_trip (s : List UInt8) (string : 0 ∉ s) : parsecmd s ≠ .blocked ∧
      (∀ t : Line, Prints t.lexemes s → parsecmd s = .ok t.cmd) ∧
      (∀ cmd, parsecmd s = .ok cmd → ∃ t : Line, Prints t.lexemes s ∧ t.cmd = cmd) ∧
      ((¬∃ t : Line, Prints t.lexemes s) → ∃ message, parsecmd s = .panic message) := by
  have spec := finish_sound string
  rw [parsecmd_eq]
  cases ran : (parseline (4 * s.length + 8) >>= finish) s with
  | ok result =>
    obtain ⟨t, prints, same⟩ := spec.ok ran
    refine ⟨?_, ?_, ?_, ?_⟩
    · rintro ⟨⟩
    · intro u printsToo
      rw [← parsecmd_returns u printsToo, parsecmd_eq, ran]
    · rintro cmd accepted
      obtain rfl : result.1 = cmd := by simpa [Outcome.map] using accepted
      exact ⟨t, prints, same⟩
    · exact fun none => absurd ⟨t, prints⟩ none
  | panic message =>
    refine ⟨?_, ?_, ?_, fun _ => ⟨message, rfl⟩⟩
    · rintro ⟨⟩
    · intro t prints
      rw [← parsecmd_returns t prints, parsecmd_eq, ran]
    · rintro cmd ⟨⟩
  | blocked => exact absurd (spec.blocked ran) id

/-- The line "(a)>b |c&". -/
def sampleLine : List UInt8 := ['(', 'a', ')', '>', 'b', ' ', '|', 'c', '&'].map Char.toUInt8

theorem parsecmd_round_trip_sampleLine : ∃ t : Line, Prints t.lexemes sampleLine ∧ t.cmd =
    .back (.pipe (.redir (.exec [['a'.toUInt8]]) ['b'.toUInt8] 513 1) (.exec [['c'.toUInt8]])) :=
  (parsecmd_round_trip sampleLine (by decide)).2.2.1 _ rfl

end Whole

end Xv6.Shell
