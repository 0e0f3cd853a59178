import Xv6.Shell

/- The language that the shell's parser is for: the trees of its grammar, the command that each of
them means and the ways to write it down. -/
namespace Xv6.Shell

/-- A word: a nonempty string without whitespace, symbols or NUL. -/
abbrev Word : Type := { w : List UInt8 // w ≠ [] ∧ ∀ c ∈ w, isWordChar c ∧ c ≠ 0 }

inductive Direction where
  | input
  | output
  | append

structure Redirection where
  direction : Direction
  file : Word

inductive Item where
  | word (w : Word)
  | redir (r : Redirection)

section Trees

def words (items : List Item) : List Word :=
  items.filterMap fun
    | .word w => some w
    | .redir _ => none

def redirs (items : List Item) : List Redirection :=
  items.filterMap fun
    | .word _ => none
    | .redir r => some r

mutual

/-- line = pipe '&'* [';' line] -/
inductive Line where
  | last (pipe : Pipe) (backs : Nat)
  | seq (pipe : Pipe) (backs : Nat) (rest : Line)

/-- Written exec ['|' pipe]. -/
inductive Pipe where
  | last (exec : Simple)
  | into (exec : Simple) (rest : Pipe)

/-- Written '(' line ')' redir* or a mix of words and redirections. -/
inductive Simple where
  | block (line : Line) (redirs : List Redirection)
  | items (items : { items : List Item // (words items).length ≤ MAXARGS - 1 })

end

end Trees

section Meaning

/-- Both ">" and ">>" open the file in the same way. -/
def Redirection.redir (r : Redirection) : Redir (List UInt8) :=
  match r.direction with
  | .input => ⟨r.file.1, Fs.O_RDONLY, 0⟩
  | .output => ⟨r.file.1, Fs.O_WRONLY + Fs.O_CREATE, 1⟩
  | .append => ⟨r.file.1, Fs.O_WRONLY + Fs.O_CREATE, 1⟩

/-- The redirections around a command, later ones outermost. -/
def redirected (cmd : Cmd (List UInt8)) (rs : List Redirection) : Cmd (List UInt8) :=
  (rs.map Redirection.redir).foldl redircmd cmd

def backs : Nat → Cmd (List UInt8) → Cmd (List UInt8)
  | 0, cmd => cmd
  | n + 1, cmd => backs n (.back cmd)

mutual

def Line.cmd : Line → Cmd (List UInt8)
  | .last pipe n => backs n pipe.cmd
  | .seq pipe n rest => .list (backs n pipe.cmd) rest.cmd

def Pipe.cmd : Pipe → Cmd (List UInt8)
  | .last exec => exec.cmd
  | .into exec rest => .pipe exec.cmd rest.cmd

def Simple.cmd : Simple → Cmd (List UInt8)
  | .block line rs => redirected line.cmd rs
  | .items items => redirected (.exec ((words items.1).map Subtype.val)) (redirs items.1)

end

end Meaning

section Writing

inductive Lexeme where
  | bar
  | opening
  | closing
  | semicolon
  | ampersand
  | direction (d : Direction)
  | word (w : Word)

def Direction.text : Direction → List UInt8
  | .input => ['<'.toUInt8]
  | .output => ['>'.toUInt8]
  | .append => ['>'.toUInt8, '>'.toUInt8]

def Lexeme.text : Lexeme → List UInt8
  | .bar => ['|'.toUInt8]
  | .opening => ['('.toUInt8]
  | .closing => [')'.toUInt8]
  | .semicolon => [';'.toUInt8]
  | .ampersand => ['&'.toUInt8]
  | .direction d => d.text
  | .word w => w.1

def Lexeme.isWord : Lexeme → Bool
  | .word _ => true
  | _ => false

def Redirection.lexemes (r : Redirection) : List Lexeme := [.direction r.direction, .word r.file]

def Item.lexemes : Item → List Lexeme
  | .word w => [.word w]
  | .redir r => r.lexemes

mutual

def Line.lexemes : Line → List Lexeme
  | .last pipe n => pipe.lexemes ++ List.replicate n .ampersand
  | .seq pipe n rest => pipe.lexemes ++ List.replicate n .ampersand ++ .semicolon :: rest.lexemes

def Pipe.lexemes : Pipe → List Lexeme
  | .last exec => exec.lexemes
  | .into exec rest => exec.lexemes ++ .bar :: rest.lexemes

def Simple.lexemes : Simple → List Lexeme
  | .block line rs => .opening :: line.lexemes ++ .closing :: rs.flatMap Redirection.lexemes
  | .items items => items.1.flatMap Item.lexemes

end

def Blank (s : List UInt8) : Prop := ∀ c ∈ s, isWhitespace c

/-- What two adjacent words need between them. -/
def Apart (x : Lexeme) (xs : List Lexeme) (rest : List UInt8) : Prop :=
  x.isWord → xs.head?.any Lexeme.isWord → rest.head?.any isWhitespace

/-- The lexemes in their order with any whitespace around them, at least one between adjacent
words. -/
inductive Prints : List Lexeme → List UInt8 → Prop where
  | nil {blank : List UInt8} (white : Blank blank) : Prints [] blank
  | cons {blank : List UInt8} {x : Lexeme} {xs : List Lexeme} {rest : List UInt8}
      (white : Blank blank) (apart : Apart x xs rest) (behind : Prints xs rest) :
      Prints (x :: xs) (blank ++ x.text ++ rest)

/-- Redirections in front of a mix of words and redirections. -/
def redirsThen (ds : List Redirection) (items : List Item) : List Item := ds.map .redir ++ items

@[simp] theorem words_redirsThen (ds : List Redirection) (items : List Item) :
    words (redirsThen ds items) = words items := by
  induction ds with
  | nil => rfl
  | cons d ds ih => exact ih

@[simp] theorem redirs_redirsThen (ds : List Redirection) (items : List Item) :
    redirs (redirsThen ds items) = ds ++ redirs items := by
  induction ds with
  | nil => rfl
  | cons d ds ih => exact congrArg (d :: ·) ih

@[simp] theorem lexemes_redirsThen (ds : List Redirection) (items : List Item) :
    (redirsThen ds items).flatMap Item.lexemes = ds.flatMap Redirection.lexemes ++
      items.flatMap Item.lexemes := by
  induction ds with
  | nil => rfl
  | cons d ds ih => exact congrArg (d.lexemes ++ ·) ih

end Writing

end Xv6.Shell
