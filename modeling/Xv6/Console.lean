import Mathlib.Data.List.Basic
import Xv6.Lib.Wrap

/- The input of console.c: a ring with three counters, edited and committed by `consoleintr` and
consumed by `consoleread`. Each of them holds `cons.lock` up to a sleep or a return, so that these
parts are the steps. What the readers took is recorded beside the state, with the line as its
typist sees it. -/
namespace Xv6.Console

abbrev INPUT_BUF : Nat := 128

structure Input where
  buf : Fin INPUT_BUF → UInt8
  r : UInt32
  w : UInt32
  e : UInt32

abbrev slot (counter : UInt32) : Fin INPUT_BUF := Wrap.slot INPUT_BUF counter

/-- Control-x. -/
def C (x : Char) : UInt8 := x.toUInt8 - '@'.toUInt8

abbrev NEWLINE : UInt8 := '\n'.toUInt8
abbrev RETURN : UInt8 := '\r'.toUInt8
abbrev DEL : UInt8 := 0x7f
abbrev EOF : UInt8 := C 'D'

section Interrupt

/-- The loop of kill line; the rounds are as many as there are characters to edit. -/
def killLine : Nat → Input → Input
  | 0, input => input
  | rounds + 1, input =>
    if input.e ≠ input.w ∧ input.buf (slot (input.e - 1)) ≠ NEWLINE then
      killLine rounds { input with e := input.e - 1 }
    else input

/-- `input.buf[input.e++ % INPUT_BUF] = c`, with the test that commits the line and wakes the
readers. -/
def store (input : Input) (c : UInt8) : Input × Bool :=
  let stored := { input with buf := Function.update input.buf (slot input.e) c, e := input.e + 1 }
  if c = NEWLINE ∨ c = EOF ∨ stored.e = stored.r + 128 then ({ stored with w := stored.e }, true)
  else (stored, false)

/-- A character from `getc`, and whether the readers are woken. -/
def typed (input : Input) (c : UInt8) : Input × Bool :=
  if c = C 'P' then (input, false)
  else if c = C 'U' then (killLine (input.e - input.w).toNat input, false)
  else if c = C 'H' ∨ c = DEL then
    if input.e ≠ input.w then ({ input with e := input.e - 1 }, false) else (input, false)
  else if c ≠ 0 ∧ input.e - input.r < 128 then store input (if c = RETURN then NEWLINE else c)
  else (input, false)

def consoleintr : Input → List UInt8 → Input × Bool
  | input, [] => (input, false)
  | input, c :: rest =>
    let (next, woken) := typed input c
    let (last, later) := consoleintr next rest
    (last, woken || later)

end Interrupt

section Read

/-- How a section of `consoleread` ends. -/
inductive Exit where
  | sleep
  | failed
  | done
  deriving DecidableEq

/-- A section of `consoleread`: the characters that it met in the ring, those that it removed and
those that it stored at `dst`, and the `n` that is left. -/
structure Section where
  input : Input
  met : List UInt8
  removed : List UInt8
  stored : List UInt8
  left : Nat
  exit : Exit

/-- The loop of `consoleread`, from where the lock is taken to where it is given up. -/
def readLoop (killed : Bool) (target : Nat) : Nat → Input → Section
  | 0, input => ⟨input, [], [], [], 0, .done⟩
  | n + 1, input =>
    if input.r = input.w then ⟨input, [], [], [], n + 1, if killed then .failed else .sleep⟩
    else
      let c := input.buf (slot input.r)
      let next := { input with r := input.r + 1 }
      if c = EOF then
        if n + 1 < target then
          -- Save ^D for next time, to make sure caller gets a 0-byte result.
          ⟨{ next with r := next.r - 1 }, [c], [], [], n + 1, .done⟩
        else ⟨next, [c], [c], [], n + 1, .done⟩
      else if c = NEWLINE then ⟨next, [c], [c], [c], n, .done⟩
      else
        let rest := readLoop killed target n next
        { rest with met := c :: rest.met, removed := c :: rest.removed, stored := c :: rest.stored }

end Read

section Discipline

/-- The line discipline without the ring: what was committed so far, and what can be edited. -/
structure Line where
  committed : List UInt8
  pending : List UInt8

/-- A character is added when `taken` of the committed ones have been read. -/
def Line.store (taken : Nat) (line : Line) (c : UInt8) : Line :=
  let pending := line.pending ++ [c]
  if c = NEWLINE ∨ c = EOF ∨ line.committed.length + pending.length = taken + INPUT_BUF then
    ⟨line.committed ++ pending, []⟩
  else { line with pending := pending }

def Line.type (taken : Nat) (line : Line) (c : UInt8) : Line :=
  if c = C 'P' then line
  else if c = C 'U' then { line with pending := [] }
  else if c = C 'H' ∨ c = DEL then { line with pending := line.pending.dropLast }
  else if c = 0 ∨ line.committed.length + line.pending.length = taken + INPUT_BUF then line
  else line.store taken (if c = RETURN then NEWLINE else c)

end Discipline

section System

/-- A process inside of `consoleread`, in the call of that number. -/
structure Reading where
  number : Nat
  target : Nat
  left : Nat
  stored : List UInt8
  asleep : Bool

/-- What a call returned, and the bytes that are at its `dst`. -/
structure Result where
  number : Nat
  value : Int
  stored : List UInt8

structure System (ι : Type) where
  input : Input
  reading : ι → Option Reading
  killed : ι → Bool
  calls : Nat
  met : List (Nat × UInt8)
  removed : List (Nat × UInt8)
  delivered : List (Nat × UInt8)
  results : List Result
  line : Line

inductive Event (ι : Type) where
  | intr (chars : List UInt8)
  | read (p : ι) (n : Int)
  | resume (p : ι)
  | kill (p : ι)

variable {ι : Type} [DecidableEq ι]

/-- Everybody who sleeps on `&input.r` is woken. -/
def System.wakeup (s : System ι) : System ι :=
  { s with reading := fun p => (s.reading p).map fun x => { x with asleep := false } }

/-- What call `k` did in a section, however that ended. -/
def System.took (s : System ι) (k : Nat) (part : Section) : System ι :=
  { s with
    input := part.input
    met := s.met ++ part.met.map fun c => (k, c)
    removed := s.removed ++ part.removed.map fun c => (k, c)
    delivered := s.delivered ++ part.stored.map fun c => (k, c) }

/-- Process `p` goes on with its call. -/
def System.advance (s : System ι) (p : ι) (x : Reading) : System ι :=
  let part := readLoop (s.killed p) x.target x.left s.input
  let stored := x.stored ++ part.stored
  match part.exit with
  | .sleep => { s.took x.number part with
      reading := Function.update s.reading p (some ⟨x.number, x.target, part.left, stored, true⟩) }
  | .failed => { s.took x.number part with
      reading := Function.update s.reading p none
      results := s.results ++ [⟨x.number, -1, stored⟩] }
  | .done => { s.took x.number part with
      reading := Function.update s.reading p none
      results := s.results ++ [⟨x.number, (x.target : Int) - part.left, stored⟩] }

def step (s : System ι) : Event ι → Option (System ι)
  | .intr chars =>
    let (input, woken) := consoleintr s.input chars
    let s := { s with input := input, line := chars.foldl (Line.type s.removed.length) s.line }
    some (if woken then s.wakeup else s)
  | .read p n =>
    match s.reading p with
    | none => some ({ s with calls := s.calls + 1 }.advance p ⟨s.calls, n.toNat, n.toNat,
        [], false⟩)
    | some _ => none
  | .resume p =>
    match s.reading p with
    | some x => if x.asleep = false then some (s.advance p x) else none
    | none => none
  | .kill p => some { s with
      killed := Function.update s.killed p true
      reading := Function.update s.reading p ((s.reading p).map fun x =>
        { x with asleep := false }) }

/-- No input and no reader yet, and the counters at any value. -/
def initial (buf : Fin INPUT_BUF → UInt8) (counter : UInt32) : System ι where
  input := ⟨buf, counter, counter, counter⟩
  reading := fun _ => none
  killed := fun _ => false
  calls := 0
  met := []
  removed := []
  delivered := []
  results := []
  line := ⟨[], []⟩

end System

end Xv6.Console
