import Mathlib.Data.List.TakeWhile
import Xv6.Shell.Grammar

/- The lexer of the shell reads a line as the lexemes that it is written with. -/
namespace Xv6.Shell

open Exec

variable {c : UInt8} {rest : Ptr} {xs : List Lexeme}

/-- No word goes on here. -/
def Ends (s : Ptr) : Prop := ∀ c, s.head? = some c → isWordChar c = false

def Lexeme.token : Lexeme → Token
  | .bar => .symbol '|'.toUInt8
  | .opening => .symbol '('.toUInt8
  | .closing => .symbol ')'.toUInt8
  | .semicolon => .symbol ';'.toUInt8
  | .ampersand => .symbol '&'.toUInt8
  | .direction .input => .symbol '<'.toUInt8
  | .direction .output => .symbol '>'.toUInt8
  | .direction .append => .append
  | .word _ => .word

section Bytes

theorem wordChar_not_white (inside : isWordChar c) : isWhitespace c = false := by
  simp only [isWordChar, decide_eq_true_eq] at inside
  simp [isWhitespace, inside.1]

theorem symbol_not_wordChar (symbol : c ∈ symbols) : isWordChar c = false := by
  simp [isWordChar, symbol]

theorem white_not_wordChar (white : isWhitespace c) : isWordChar c = false := by
  simp only [isWhitespace, decide_eq_true_eq] at white
  simp [isWordChar, white]

theorem Word.cons (w : Word) : ∃ c rest, w.1 = c :: rest ∧ isWordChar c := by
  obtain ⟨c, rest, split⟩ := List.exists_cons_of_ne_nil w.2.1
  exact ⟨c, rest, split, (w.2.2 c (by simp [split])).1⟩

/-- A lexeme begins with a byte of a word or with a symbol. -/
theorem Lexeme.begins (x : Lexeme) :
    ∃ c rest, x.text = c :: rest ∧ isWhitespace c = false ∧
      (x.isWord ∧ isWordChar c ∨ x.isWord = false ∧ c ∈ symbols) := by
  cases x with
  | word w =>
    obtain ⟨c, rest, split, inside⟩ := w.cons
    exact ⟨c, rest, split, wordChar_not_white inside, Or.inl ⟨rfl, inside⟩⟩
  | direction d => cases d <;> exact ⟨_, _, rfl, by decide, Or.inr ⟨rfl, by decide⟩⟩
  | _ => exact ⟨_, _, rfl, by decide, Or.inr ⟨rfl, by decide⟩⟩

end Bytes

section Skipping

theorem blank_nil : Blank [] := fun _ inside => absurd inside List.not_mem_nil

theorem skip_suffix (s : Ptr) : skip s <:+ s := List.dropWhile_suffix _

theorem skip_blank {blank : List UInt8} (white : Blank blank) (s : Ptr) :
    skip (blank ++ s) = skip s :=
  List.dropWhile_append_of_pos white

theorem skip_split (s : Ptr) : ∃ blank, Blank blank ∧ s = blank ++ skip s :=
  ⟨s.takeWhile isWhitespace, fun _ inside => List.mem_takeWhile_imp inside,
    List.takeWhile_append_dropWhile.symm⟩

theorem skip_of_not_white (dark : isWhitespace c = false) : skip (c :: rest) = c :: rest := by
  simp [skip, dark]

theorem skip_head {s : Ptr} (first : (skip s).head? = some c) : isWhitespace c = false := by
  have stopped := List.head?_dropWhile_not isWhitespace s
  simp only [skip] at first
  simpa [first] using stopped

theorem skip_text (x : Lexeme) (rest : Ptr) : skip (x.text ++ rest) = x.text ++ rest := by
  obtain ⟨c, more, split, dark, -⟩ := x.begins
  rw [split]
  exact skip_of_not_white dark

end Skipping

section Tokens

/-- The end of a word is found where the word ends. -/
theorem dropWhile_word {w : List UInt8} (inside : ∀ c ∈ w, isWordChar c) (ends : Ends rest) :
    (w ++ rest).dropWhile isWordChar = rest := by
  rw [List.dropWhile_append_of_pos inside]
  cases rest with
  | nil => rfl
  | cons c behind => simp [ends c rfl]

theorem tokenAt_word {q : Ptr} (first : q.head? = some c) (inside : isWordChar c) :
    tokenAt q = (.word, q.dropWhile isWordChar) := by
  cases q with
  | nil => simp at first
  | cons d rest =>
    obtain rfl : d = c := by simpa using first
    have noSymbol : d ∉ symbols := by
      intro symbol
      simp [symbol_not_wordChar symbol] at inside
    have noOutput : d ≠ '>'.toUInt8 := by
      rintro rfl
      exact noSymbol (by decide)
    simp only [tokenAt, if_neg noOutput, if_neg noSymbol]

/-- The lexer takes the lexeme that the line goes on with. -/
theorem tokenAt_text {x : Lexeme} (word : x.isWord → Ends rest)
    (output : x = .direction .output → rest.head? ≠ some '>'.toUInt8) :
    tokenAt (x.text ++ rest) = (x.token, rest) := by
  cases x with
  | word w =>
    obtain ⟨c, more, split, inside⟩ := w.cons
    rw [tokenAt_word (c := c) (by simp [Lexeme.text, split]) inside]
    exact congrArg _ (dropWhile_word (fun c inside => (w.2.2 c inside).1) (word rfl))
  | direction d =>
    cases d with
    | input => rfl
    | append => rfl
    | output =>
      cases rest with
      | nil => rfl
      | cons c behind =>
        have other : c ≠ '>'.toUInt8 := by simpa using output rfl
        simp only [Lexeme.text, Direction.text, List.cons_append, List.nil_append, tokenAt, if_pos,
          if_neg other]
        rfl
  | _ => rfl

theorem ends_dropWhile (s : Ptr) : Ends (s.dropWhile isWordChar) := by
  intro c first
  simpa [first] using List.head?_dropWhile_not isWordChar s

/-- Whatever the line goes on with is a lexeme. -/
theorem exists_lexeme {q : Ptr} (first : q.head? = some c) (dark : isWhitespace c = false)
    (noNul : 0 ∉ q) :
    ∃ (x : Lexeme) (eq : Ptr), q = x.text ++ eq ∧ tokenAt q = (x.token, eq) ∧
      (x.isWord → Ends eq) := by
  cases inside : isWordChar c with
  | true =>
    have split : q = q.takeWhile isWordChar ++ q.dropWhile isWordChar :=
      List.takeWhile_append_dropWhile.symm
    have nonempty : q.takeWhile isWordChar ≠ [] := by
      cases q with
      | nil => simp at first
      | cons d rest =>
        obtain rfl : d = c := by simpa using first
        simp [inside]
    let w : Word := ⟨q.takeWhile isWordChar, nonempty, fun d taken =>
      ⟨List.mem_takeWhile_imp taken, fun zero => noNul (zero ▸ List.takeWhile_subset _ taken)⟩⟩
    exact ⟨.word w, _, split, tokenAt_word first inside, fun _ => ends_dropWhile q⟩
  | false =>
    have symbol : c ∈ symbols := by grind [isWhitespace, decide_eq_false_iff_not, isWordChar]
    obtain ⟨rest, rfl⟩ : ∃ rest, q = c :: rest := by
      cases q with
      | nil => simp at first
      | cons d rest => exact ⟨rest, by simpa using first⟩
    have lexeme : ∀ x : Lexeme, x.text = [c] → x.isWord = false →
        (x = .direction .output → rest.head? ≠ some '>'.toUInt8) →
        ∃ (x : Lexeme) (eq : Ptr), c :: rest = x.text ++ eq ∧ tokenAt (c :: rest) = (x.token, eq) ∧
          (x.isWord → Ends eq) := by
      intro x text noWord output
      refine ⟨x, rest, by rw [text]; rfl, ?_, by simp [noWord]⟩
      have taken : tokenAt (x.text ++ rest) = (x.token, rest) :=
        tokenAt_text (by simp [noWord]) output
      rwa [text] at taken
    simp only [symbols, List.map_cons, List.map_nil, List.mem_cons, List.not_mem_nil,
      or_false] at symbol
    rcases symbol with rfl | rfl | rfl | rfl | rfl | rfl | rfl
    · exact lexeme (.direction .input) rfl rfl nofun
    · exact lexeme .bar rfl rfl nofun
    · by_cases twice : rest.head? = some '>'.toUInt8
      · obtain ⟨behind, rfl⟩ : ∃ behind, rest = '>'.toUInt8 :: behind := by
          cases rest with
          | nil => simp at twice
          | cons d behind => exact ⟨behind, by simpa using twice⟩
        exact ⟨.direction .append, behind, rfl, rfl, nofun⟩
      · exact lexeme (.direction .output) rfl rfl fun _ => twice
    · exact lexeme .ampersand rfl rfl nofun
    · exact lexeme .semicolon rfl rfl nofun
    · exact lexeme .opening rfl rfl nofun
    · exact lexeme .closing rfl rfl nofun

end Tokens

section Printing

variable {x : Lexeme} {s : Ptr}

theorem Prints.blank {blank : List UInt8} (white : Blank blank) (prints : Prints xs s) :
    Prints xs (blank ++ s) := by
  have both : ∀ {more : List UInt8}, Blank more → Blank (blank ++ more) := fun more _ inside =>
    (List.mem_append.mp inside).elim (white _) (more _)
  cases prints with
  | nil more => exact .nil (both more)
  | cons more apart behind =>
    rw [← List.append_assoc, ← List.append_assoc]
    exact .cons (both more) apart behind

theorem Prints.of_skip (prints : Prints xs (skip s)) : Prints xs s := by
  obtain ⟨blank, white, split⟩ := skip_split s
  rw [split]
  exact prints.blank white

theorem Prints.nil_skip (prints : Prints [] s) : skip s = [] := by
  cases prints with
  | nil white => exact List.dropWhile_eq_nil_iff.mpr white

theorem Prints.cons_skip (prints : Prints (x :: xs) s) :
    ∃ rest, skip s = x.text ++ rest ∧ Apart x xs rest ∧ Prints xs rest := by
  cases prints with
  | @cons blank _ _ rest white apart behind =>
    refine ⟨rest, ?_, apart, behind⟩
    rw [List.append_assoc, skip_blank white, skip_text]

theorem Prints.skip (prints : Prints xs s) : Prints xs (skip s) := by
  cases xs with
  | nil =>
    rw [prints.nil_skip]
    exact .nil (by simp [Blank])
  | cons x xs =>
    obtain ⟨rest, split, apart, behind⟩ := prints.cons_skip
    rw [split]
    exact .cons blank_nil apart behind

/-- Behind a word the line does not go on with one. -/
theorem Prints.ends (prints : Prints xs rest)
    (apart : xs.head?.any Lexeme.isWord → rest.head?.any isWhitespace) :
    Ends rest := by
  intro c first
  cases prints with
  | nil white => exact white_not_wordChar (white c (List.mem_of_mem_head? first))
  | @cons blank x _ behind white _ _ =>
    cases blank with
    | cons d more =>
      obtain rfl : d = c := by simpa using first
      exact white_not_wordChar (white d List.mem_cons_self)
    | nil =>
      obtain ⟨d, more, split, dark, word | symbol⟩ := x.begins
      · simp [split, dark, word.1] at apart
      · obtain rfl : d = c := by simpa [split] using first
        exact symbol_not_wordChar symbol.2

/-- Where no word goes on, a word comes only after whitespace. -/
theorem Prints.apart (prints : Prints xs rest) (ends : Ends rest)
    (word : xs.head?.any Lexeme.isWord) :
    rest.head?.any isWhitespace := by
  cases prints with
  | nil _ => simp at word
  | @cons blank x _ behind white _ _ =>
    cases blank with
    | cons d more => simp [white d List.mem_cons_self]
    | nil =>
      obtain ⟨d, more, split, -, inside | symbol⟩ := x.begins
      · have stopped := ends d (by simp [split])
        grind
      · simp [symbol.1] at word

/-- A file name does not begin with '>'. -/
theorem Prints.not_output {w : Word} (prints : Prints (.word w :: xs) rest) :
    rest.head? ≠ some '>'.toUInt8 := by
  intro first
  cases prints with
  | @cons blank _ _ behind white _ _ =>
    cases blank with
    | cons d more =>
      obtain rfl : d = '>'.toUInt8 := by simpa using first
      exact absurd (white _ List.mem_cons_self) (by decide)
    | nil =>
      obtain ⟨c, more, split, inside⟩ := w.cons
      obtain rfl : c = '>'.toUInt8 := by simpa [Lexeme.text, split] using first
      exact absurd inside (by decide)

end Printing

section Steps

variable {buf s : Ptr}

/-- This word stands here in the line. -/
structure WordAt (buf : Ptr) (span : Span) (w : List UInt8) : Prop where
  line : span.q <:+ buf
  starts : span.q = w ++ span.eq
  inside : ∀ c ∈ w, isWordChar c
  ends : Ends span.eq

/-- From one place to the other the line is written with these lexemes. -/
structure Reads (s : Ptr) (xs : List Lexeme) (after : Ptr) : Prop where
  prints : ∀ {more : List Lexeme}, Prints more after → Prints (xs ++ more) s
  suffix : after <:+ s

theorem Reads.trans {s middle after : Ptr} {ys : List Lexeme} (first : Reads s xs middle)
    (second : Reads middle ys after) : Reads s (xs ++ ys) after where
  prints prints := by
    rw [List.append_assoc]
    exact first.prints (second.prints prints)
  suffix := second.suffix.trans first.suffix

theorem Reads.skip (s : Ptr) : Reads s [] (skip s) := ⟨Prints.of_skip, skip_suffix s⟩

theorem gettoken_eq (s : Ptr) : gettoken s =
    .ok (((tokenAt (skip s)).1, ⟨skip s, (tokenAt (skip s)).2⟩), skip (tokenAt (skip s)).2) := rfl

theorem peek_eq (toks : List Char) (s : Ptr) :
    peek toks s = .ok ((skip s).head?.any (fun c => c ∈ toks.map Char.toUInt8), skip s) := rfl

end Steps

section Known

variable {α : Type} {allowed : Stops} {post : α → Ptr → Prop} {buf s : Ptr} {x : Lexeme}
  {next : Token × Span → Exec Ptr α}

theorem skip_skip (s : Ptr) : skip (skip s) = skip s := by
  cases split : skip s with
  | nil => rfl
  | cons c rest => exact skip_of_not_white (skip_head (by rw [split]; rfl))

theorem Lexeme.not_word_of_first (symbol : c ∈ symbols) (first : x.text.head? = some c) :
    x.isWord = false := by
  obtain ⟨b, rest, split, -, word | other⟩ := x.begins
  · obtain rfl : b = c := by simpa [split] using first
    rw [symbol_not_wordChar symbol] at word
    exact absurd word.2 nofun
  · exact other.1

/-- A redirection is known by its first byte. -/
theorem Lexeme.direction_of_first {c : Char} (symbol : c ∈ ['<', '>'])
    (first : x.text.head? = some c.toUInt8) : ∃ d, x = .direction d := by
  simp only [List.mem_cons, List.not_mem_nil, or_false] at symbol
  rcases symbol with rfl | rfl
  all_goals
    cases x with
    | direction d => exact ⟨d, rfl⟩
    | word w => exact absurd (Lexeme.not_word_of_first (by decide) first) nofun
    | _ => exact absurd first (by decide)

/-- The symbols that stand for themselves. -/
def Lexeme.isSingle : Lexeme → Bool
  | .direction _ => false
  | .word _ => false
  | _ => true

theorem Lexeme.eq_of_first {y : Lexeme} (single : y.isSingle)
    (first : x.text.head? = y.text.head?) : x = y := by
  cases y with
  | direction d => exact absurd single nofun
  | word w => exact absurd single nofun
  | _ =>
    cases x with
    | word w => exact absurd (Lexeme.not_word_of_first (by decide) first) nofun
    | direction d => cases d <;> exact absurd first (by decide)
    | _ => first | rfl | exact absurd first (by decide)

theorem peek_sound {toks : List Char} {next : Bool → Exec Ptr α}
    (found : ∀ c ∈ toks, (skip s).head? = some c.toUInt8 → Spec allowed (next true) (skip s) post)
    (other : Spec allowed (next false) (skip s) post) :
    Spec allowed (peek toks >>= next) s post := by
  refine (Spec.of_eq (peek_eq toks s)).bind ?_
  rintro _ _ ⟨rfl, rfl⟩
  cases first : (skip s).head? with
  | none => exact other
  | some c =>
    by_cases inside : c ∈ toks.map Char.toUInt8
    · obtain ⟨d, member, rfl⟩ := List.mem_map.mp inside
      have yes := found d member first
      rwa [Option.any_some, decide_eq_true inside]
    · rwa [Option.any_some, decide_eq_false inside]

theorem gettoken_sound (line : s <:+ buf) (noNul : 0 ∉ buf)
    (stop : ∀ span, skip s = [] → Spec allowed (next (.none, span)) [] post)
    (found : ∀ x span after, (skip s).head? = x.text.head? → Reads s [x] after →
      after.length < s.length → (∀ w, x = .word w → WordAt buf span w.1) →
      Spec allowed (next (x.token, span)) after post) :
    Spec allowed (gettoken >>= next) s post := by
  refine (Spec.of_eq (gettoken_eq s)).bind ?_
  rintro _ _ ⟨rfl, rfl⟩
  cases first : (skip s).head? with
  | none =>
    have nothing : skip s = [] := List.head?_eq_none_iff.mp first
    rw [nothing]
    exact stop _ nothing
  | some c =>
    have onLine : skip s <:+ buf := (skip_suffix s).trans line
    obtain ⟨x, eq, split, taken, ends⟩ :=
      exists_lexeme first (skip_head first) fun zero => noNul (onLine.subset zero)
    obtain ⟨d, more, begins, -⟩ := x.begins
    have firstText : (skip s).head? = x.text.head? := by simp [split, begins]
    have shorter : (skip eq).length < s.length := by
      have total := congrArg List.length split
      have behind := (skip_suffix eq).length_le
      have before := (skip_suffix s).length_le
      grind
    rw [taken]
    apply found x _ _ firstText _ shorter
    · rintro w rfl
      exact ⟨onLine, split, fun c inside => (w.2.2 c inside).1, ends rfl⟩
    · constructor
      · intro more prints
        apply Prints.of_skip
        rw [split]
        have behind : Prints more eq := prints.of_skip
        exact .cons blank_nil (fun word next => behind.apart (ends word) next) behind
      · have fromText : eq <:+ skip s := split ▸ List.suffix_append x.text eq
        exact (skip_suffix eq).trans (fromText.trans (skip_suffix s))

theorem peek_complete {toks : List Char} {next : Bool → Exec Ptr α} (prints : Prints xs s)
    (holds : Spec allowed (next ((xs.head?.bind fun x => x.text.head?).any fun c =>
      c ∈ toks.map Char.toUInt8)) (skip s) post) : Spec allowed (peek toks >>= next) s post := by
  refine (Spec.of_eq (peek_eq toks s)).bind ?_
  rintro _ _ ⟨rfl, rfl⟩
  have first : (skip s).head? = xs.head?.bind fun x => x.text.head? := by
    cases xs with
    | nil => rw [prints.nil_skip]; rfl
    | cons x xs =>
      obtain ⟨rest, split, -⟩ := prints.cons_skip
      obtain ⟨d, more, begins, -⟩ := x.begins
      simp [split, begins]
  rw [first]
  exact holds

theorem gettoken_complete (line : s <:+ buf)
    (prints : Prints (x :: xs) s) (output : x = .direction .output → ∃ w more, xs = .word w :: more)
    (holds : ∀ span after, Prints xs after → after <:+ s → after.length < s.length →
      (∀ w, x = .word w → WordAt buf span w.1) → Spec allowed (next (x.token, span)) after post) :
    Spec allowed (gettoken >>= next) s post := by
  refine (Spec.of_eq (gettoken_eq s)).bind ?_
  rintro _ _ ⟨rfl, rfl⟩
  obtain ⟨rest, split, apart, behind⟩ := prints.cons_skip
  have ends : x.isWord → Ends rest := fun word => behind.ends (apart word)
  have taken : tokenAt (skip s) = (x.token, rest) := by
    rw [split]
    apply tokenAt_text ends
    intro isOutput
    obtain ⟨w, more, rfl⟩ := output isOutput
    exact behind.not_output
  obtain ⟨d, more, begins, -⟩ := x.begins
  have fromText : rest <:+ skip s := split ▸ List.suffix_append x.text rest
  have shorter : (skip rest).length < s.length := by
    have total := congrArg List.length split
    have inner := (skip_suffix rest).length_le
    have before := (skip_suffix s).length_le
    grind
  rw [taken]
  apply holds _ _ behind.skip ((skip_suffix rest).trans (fromText.trans (skip_suffix s))) shorter
  rintro w rfl
  exact ⟨(skip_suffix s).trans line, split, fun c inside => (w.2.2 c inside).1, ends rfl⟩

theorem gettoken_end (prints : Prints [] s)
    (holds : ∀ span, Spec allowed (next (.none, span)) [] post) :
    Spec allowed (gettoken >>= next) s post := by
  refine (Spec.of_eq (gettoken_eq s)).bind ?_
  rintro _ _ ⟨rfl, rfl⟩
  rw [prints.nil_skip]
  exact holds _

end Known

end Xv6.Shell
