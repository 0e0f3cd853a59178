import Xv6.Shell.RoundTrip

/- `nulterminate` writes its NULs into the command line itself, between the strings that the
nodes of the command point to. -/
namespace Xv6.Shell

open Exec

/-- The bytes at a pointer once the NULs are written. -/
def terminated (nuls : List Nat) : Ptr → List UInt8
  | [] => []
  | c :: rest => (if rest.length + 1 ∈ nuls then 0 else c) :: terminated nuls rest

/-- The string that the bytes at a pointer are read as. -/
def cstring (bytes : List UInt8) : List UInt8 := bytes.takeWhile (· ≠ 0)

/-- The array `argv` of an EXEC node, `none` being the null pointer. -/
def slots {ω : Type} (argv : List ω) (i : Fin MAXARGS) : Option ω := argv[i.val]?

/-- A property of the arguments of every EXEC node and one of the file of every REDIR node. -/
def Cmd.Every {ω : Type} (args : List ω → Prop) (file : ω → Prop) : Cmd ω → Prop
  | .exec argv => args argv
  | .redir cmd name _ _ => cmd.Every args file ∧ file name
  | .pipe left right => left.Every args file ∧ right.Every args file
  | .list left right => left.Every args file ∧ right.Every args file
  | .back cmd => cmd.Every args file

/-- The string at a token is what the line had there, from its first to its last character. -/
structure Intact (line : Ptr) (nuls : List Nat) (token : Span) : Prop where
  inside : token.q <:+ line
  same : token.q = cstring (terminated nuls token.q) ++ token.eq

/-- The arguments are strings of the line, fewer than the array has room for, and a null pointer
follows them. -/
structure Arguments (line : Ptr) (nuls : List Nat) (argv : List Span) : Prop where
  intact : ∀ token ∈ argv, Intact line nuls token
  few : argv.length ≤ MAXARGS - 1
  stops : ∃ argc : Fin MAXARGS, argc = argv.length ∧ slots argv argc = none

section Nodes

variable {line : Ptr} {nuls : List Nat}

theorem cstring_terminated {q : Ptr} (string : 0 ∉ q) :
    cstring (terminated nuls q) = text nuls q := by
  induction q with
  | nil => rfl
  | cons c rest ih =>
    rw [List.mem_cons, not_or] at string
    grind [terminated, text, cstring, List.takeWhile_cons, decide_eq_true]

theorem WordAt.cstring {token : Span} {w : List UInt8} (string : 0 ∉ line)
    (word : WordAt line token w) (ended : token.eq.length ∈ nuls) (atEnds : AtEnds line nuls) :
    cstring (terminated nuls token.q) = w := by
  rw [cstring_terminated fun zero => string (word.line.mem zero), word.text ended atEnds]

theorem WordAt.intact {token : Span} {w : List UInt8} (string : 0 ∉ line)
    (word : WordAt line token w) (ended : token.eq.length ∈ nuls) (atEnds : AtEnds line nuls) :
    Intact line nuls token := by
  refine ⟨word.line, ?_⟩
  rw [word.cstring string ended atEnds]
  exact word.starts

theorem arguments_of_words {argv : List Span} {words : List (List UInt8)} (string : 0 ∉ line)
    (same : List.Forall₂ (WordAt line) argv words) (ended : nulterminate (.exec argv) ⊆ nuls)
    (atEnds : AtEnds line nuls) (few : words.length ≤ MAXARGS - 1) : Arguments line nuls argv := by
  rw [← same.length_eq] at few
  refine ⟨?_, few, ⟨argv.length, Nat.lt_succ_of_le few⟩, rfl, List.getElem?_eq_none (Nat.le_refl _)⟩
  clear few
  induction same with
  | nil => exact nofun
  | cons word _ ih =>
    refine List.forall_mem_cons.mpr ⟨word.intact string (ended List.mem_cons_self) atEnds, ih ?_⟩
    exact fun n inside => ended (List.mem_cons_of_mem _ inside)

/-- Every node of the command as it was parsed. -/
theorem Stands.every {cmd : Cmd Span} {sub : Cmd (List UInt8)} (stands : Stands line cmd sub)
    (string : 0 ∉ line) (ended : nulterminate cmd ⊆ nuls) (atEnds : AtEnds line nuls)
    (few : sub.Every (fun words => words.length ≤ MAXARGS - 1) fun _ => True) :
    cmd.Every (Arguments line nuls) (Intact line nuls) := by
  induction stands with
  | exec same => exact arguments_of_words string same ended atEnds few
  | redir inner word ih =>
    simp only [nulterminate, List.append_subset] at ended
    exact ⟨ih ended.1 few.1, word.intact string (ended.2 List.mem_cons_self) atEnds⟩
  | pipe _ _ first second | list _ _ first second =>
    simp only [nulterminate, List.append_subset] at ended
    exact ⟨first ended.1 few.1, second ended.2 few.2⟩
  | back _ ih => exact ih ended few

end Nodes

section Trees

variable {args : List (List UInt8) → Prop} {cmd : Cmd (List UInt8)}

theorem every_redirected (rs : List Redirection) (every : cmd.Every args fun _ => True) :
    (redirected cmd rs).Every args fun _ => True := by
  induction rs generalizing cmd with
  | nil => exact every
  | cons r rs ih => exact ih ⟨every, trivial⟩

theorem every_backs (n : Nat) (every : cmd.Every args fun _ => True) :
    (backs n cmd).Every args fun _ => True := by
  induction n generalizing cmd with
  | zero => exact every
  | succ n ih => exact ih every

mutual

theorem Line.few (t : Line) : t.cmd.Every (fun words => words.length ≤ MAXARGS - 1) fun _ => True :=
  match t with
  | .last pipe n => every_backs n pipe.few
  | .seq pipe n rest => ⟨every_backs n pipe.few, rest.few⟩

theorem Pipe.few (t : Pipe) : t.cmd.Every (fun words => words.length ≤ MAXARGS - 1) fun _ => True :=
  match t with
  | .last exec => exec.few
  | .into exec rest => ⟨exec.few, rest.few⟩

theorem Simple.few (t : Simple) :
    t.cmd.Every (fun words => words.length ≤ MAXARGS - 1) fun _ => True :=
  match t with
  | .block line rs => every_redirected rs line.few
  | .items items => every_redirected _ (by
      change ((words items.1).map Subtype.val).length ≤ MAXARGS - 1
      rw [List.length_map]
      exact items.2)

end

end Trees

theorem finish_value {cmd : Cmd Span} {result : Cmd (List UInt8)} {after rest : Ptr}
    (finished : finish cmd after = .ok (result, rest)) :
    result = cmd.map fun token => text (nulterminate cmd) token.q := by
  have spec : Spec errors (finish cmd) after fun value _ => value = cmd.map fun token =>
    text (nulterminate cmd) token.q := by
    apply peek_sound
    · exact fun c inside => absurd inside List.not_mem_nil
    refine Spec.bind_get ?_
    split
    · exact Spec.panic trivial
    · exact Spec.pure rfl
  exact spec.ok finished

/-- On every line that is accepted the NULs destroy no string: each argument and each file is read
as the characters of its token, and every `argv` ends in a null pointer. -/
theorem parsecmd_terminated (s : List UInt8) (string : 0 ∉ s) (result : Cmd (List UInt8))
    (accepted : parsecmd s = .ok result) :
    ∃ cmd after, parseline (4 * s.length + 8) s = .ok (cmd, after) ∧
      result = cmd.map (fun token => cstring (terminated (nulterminate cmd) token.q)) ∧
      cmd.Every (Arguments s (nulterminate cmd)) (Intact s (nulterminate cmd)) := by
  rw [parsecmd_eq, Outcome.map_eq_ok] at accepted
  obtain ⟨⟨result, rest⟩, ran, rfl⟩ := accepted
  obtain ⟨cmd, after, read, finished⟩ := bind_eq_ok.mp ran
  obtain ⟨t, parsed⟩ := (parseline_sound string (4 * s.length + 8) s (List.suffix_refl s)
    (by omega)).ok read
  have atEnds := parsed.stands.atEnds
  refine ⟨cmd, after, read, ?_, parsed.stands.every string (List.Subset.refl _) atEnds t.few⟩
  rw [finish_value finished, parsed.stands.map_text]
  exact (parsed.stands.map_eq (List.Subset.refl _) fun word ended =>
    word.cstring string ended atEnds).symm

theorem parsecmd_terminated_sampleLine :
    ∃ cmd after, parseline (4 * sampleLine.length + 8) sampleLine = .ok (cmd, after) ∧
      .back (.pipe (.redir (.exec [['a'.toUInt8]]) ['b'.toUInt8] 513 1) (.exec [['c'.toUInt8]])) =
        cmd.map (fun token => cstring (terminated (nulterminate cmd) token.q)) ∧
      cmd.Every (Arguments sampleLine (nulterminate cmd)) (Intact sampleLine (nulterminate cmd)) :=
  parsecmd_terminated sampleLine (by decide) _ rfl

end Xv6.Shell
