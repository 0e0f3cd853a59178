import Xv6.Fs.File

/- The parser of the shell (sh.c). A pointer into the command line is what the line has from there
on, so that the end of the line is the empty list; the NUL behind it is the only one. -/
namespace Xv6.Shell

open Exec

abbrev MAXARGS : Nat := 10

abbrev Ptr := List UInt8

def whitespace : List UInt8 := [' ', '\t', '\r', '\n', '\x0b'].map Char.toUInt8
def symbols : List UInt8 := ['<', '|', '>', '&', ';', '(', ')'].map Char.toUInt8

/-- A counted string, from `q` to `eq`. -/
structure Span where
  q : Ptr
  eq : Ptr

/-- `struct cmd` and what its type makes of it. -/
inductive Cmd (ω : Type) where
  | exec (argv : List ω)
  | redir (cmd : Cmd ω) (file : ω) (mode : Int) (fd : Nat)
  | pipe (left right : Cmd ω)
  | list (left right : Cmd ω)
  | back (cmd : Cmd ω)
  deriving DecidableEq

/-- What `gettoken` returns: 0, a symbol, '+' for ">>" or 'a' for a word. -/
inductive Token where
  | none
  | symbol (c : UInt8)
  | append
  | word
  deriving DecidableEq

section Lexer

def isWhitespace (c : UInt8) : Bool := c ∈ whitespace

def isWordChar (c : UInt8) : Bool := c ∉ whitespace ∧ c ∉ symbols

def skip (s : Ptr) : Ptr := s.dropWhile isWhitespace

/-- The token at `q`, and where it ends. -/
def tokenAt : Ptr → Token × Ptr
  | [] => (.none, [])
  | c :: rest =>
    if c = '>'.toUInt8 then
      match rest with
      | [] => (.symbol c, [])
      | next :: behind =>
          if next = '>'.toUInt8 then (.append, behind) else (.symbol c, next :: behind)
    else if c ∈ symbols then (.symbol c, rest)
    else (.word, (c :: rest).dropWhile isWordChar)

def gettoken : Exec Ptr (Token × Span) := do
  let s ← get
  let q := skip s
  let (ret, eq) := tokenAt q
  modify fun _ => skip eq
  return (ret, ⟨q, eq⟩)

def peek (toks : List Char) : Exec Ptr Bool := do
  modify skip
  let s ← get
  return s.head?.any fun c => c ∈ toks.map Char.toUInt8

end Lexer

section Parser

/-- A redirection, before it is put around a command. -/
structure Redir (ω : Type) where
  file : ω
  mode : Int
  fd : Nat

def redircmd {ω : Type} (subcmd : Cmd ω) (r : Redir ω) : Cmd ω := .redir subcmd r.file r.mode r.fd

/-- The redirections that the loop of `parseredirs` puts around the command, the innermost first. -/
def parseredirs : Nat → Exec Ptr (List (Redir Span))
  | 0 => wait
  | fuel + 1 => do
    if ← peek ['<', '>'] then
      let (tok, _) ← gettoken
      let (file, word) ← gettoken
      if file ≠ .word then Exec.panic "missing file for redirection"
      else
        let r :=
          if tok = .symbol '<'.toUInt8 then Redir.mk word Fs.O_RDONLY 0
          else Redir.mk word (Fs.O_WRONLY + Fs.O_CREATE) 1
        let rest ← parseredirs fuel
        return r :: rest
    else return []

/-- The loop of `parseexec`: the words and the redirections between them. -/
def parseargs : Nat → Nat → Exec Ptr (List Span × List (Redir Span))
  | 0, _ => wait
  | fuel + 1, argc => do
    if ← peek ['|', ')', '&', ';'] then return ([], [])
    else
      let (tok, word) ← gettoken
      if tok = .none then return ([], [])
      else if tok ≠ .word then Exec.panic "syntax"
      else if MAXARGS ≤ argc + 1 then Exec.panic "too many args"
      else
        let here ← parseredirs fuel
        let (words, rest) ← parseargs fuel (argc + 1)
        return (word :: words, here ++ rest)

/-- The loop of `parseline` over "&". -/
def parsebacks : Nat → Cmd Span → Exec Ptr (Cmd Span)
  | 0, _ => wait
  | fuel + 1, cmd => do
    if ← peek ['&'] then
      let _ ← gettoken
      parsebacks fuel (.back cmd)
    else return cmd

mutual

def parseline : Nat → Exec Ptr (Cmd Span)
  | 0 => wait
  | fuel + 1 => do
    let first ← parsepipe fuel
    let cmd ← parsebacks fuel first
    if ← peek [';'] then
      let _ ← gettoken
      let rest ← parseline fuel
      return .list cmd rest
    else return cmd

def parsepipe : Nat → Exec Ptr (Cmd Span)
  | 0 => wait
  | fuel + 1 => do
    let cmd ← parseexec fuel
    if ← peek ['|'] then
      let _ ← gettoken
      let rest ← parsepipe fuel
      return .pipe cmd rest
    else return cmd

def parseexec : Nat → Exec Ptr (Cmd Span)
  | 0 => wait
  | fuel + 1 => do
    if ← peek ['('] then parseblock fuel
    else
      let here ← parseredirs fuel
      let (words, rest) ← parseargs fuel 0
      return (here ++ rest).foldl redircmd (.exec words)

def parseblock : Nat → Exec Ptr (Cmd Span)
  | 0 => wait
  | fuel + 1 => do
    if ← peek ['('] then
      let _ ← gettoken
      let cmd ← parseline fuel
      if ← peek [')'] then
        let _ ← gettoken
        let redirs ← parseredirs fuel
        return redirs.foldl redircmd cmd
      else Exec.panic "syntax - missing )"
    else Exec.panic "parseblock"

end

/-- Where `nulterminate` writes a NUL, by the number of bytes from there to the end. -/
def nulterminate : Cmd Span → List Nat
  | .exec argv => argv.map fun word => word.eq.length
  | .redir cmd file _ _ => nulterminate cmd ++ [file.eq.length]
  | .pipe left right => nulterminate left ++ nulterminate right
  | .list left right => nulterminate left ++ nulterminate right
  | .back cmd => nulterminate cmd

/-- The string at a pointer, when there are NULs at these places. -/
def text (nuls : List Nat) : Ptr → List UInt8
  | [] => []
  | c :: rest => if rest.length + 1 ∈ nuls then [] else c :: text nuls rest

def Cmd.map {α β : Type} (f : α → β) : Cmd α → Cmd β
  | .exec argv => .exec (argv.map f)
  | .redir cmd file mode fd => .redir (cmd.map f) (f file) mode fd
  | .pipe left right => .pipe (left.map f) (right.map f)
  | .list left right => .list (left.map f) (right.map f)
  | .back cmd => .back (cmd.map f)

/-- The command with its strings as they are in the end. -/
def parsecmd (s : Ptr) : Outcome (Cmd (List UInt8)) :=
  ((do
    let cmd ← parseline (4 * s.length + 8)
    let _ ← peek []
    let rest ← get
    if rest ≠ [] then Exec.panic "syntax"
    else return cmd.map fun word : Span => text (nulterminate cmd) word.q) s).map Prod.fst

end Parser

end Xv6.Shell
