import Xv6.Lib.Loop
import Xv6.Lib.Outcome
import Xv6.Params

/- mp.c: the configuration table and the walk over its entries. Memory is read by physical
address, and the table is what it holds from `mp->physaddr` on. -/
namespace Xv6.Mp

abbrev NCPU : Nat := 8

/-- The fields of the floating pointer structure that are read once it is found. -/
structure Pointer where
  physaddr : Nat
  imcrp : UInt8
  deriving DecidableEq

/-- The sum of `len` bytes, as the `uchar` it is returned as. -/
def sum (table : Nat → UInt8) (len : Nat) : Nat :=
  (List.range len).foldl (fun sum i => sum + (table i).toNat) 0 % 256

/-- The field `length` of the table's header. -/
def length (table : Nat → UInt8) : Nat := (table 4).toNat + (table 5).toNat * 256

def lapicaddr (table : Nat → UInt8) : UInt32 :=
  (table 36).toUInt32 ||| (table 37).toUInt32 <<< 8 ||| (table 38).toUInt32 <<< 16 |||
    (table 39).toUInt32 <<< 24

/-- The bytes from the table's header on. -/
def Pointer.table (mem : Nat → UInt8) (mp : Pointer) (i : Nat) : UInt8 := mem (mp.physaddr + i)

/-- `sizeof(struct mpconf)`: the entries follow the header. -/
def HEADER : Nat := 44

/-- `mpconfig` accepts a table with the signature `PCMP`, a known version and a checksum that
fits. `mp` is what `mpsearch` has found. -/
def mpconfig (mem : Nat → UInt8) (mp : Option Pointer) : Option Pointer :=
  match mp with
  | none => none
  | some mp =>
    let table := mp.table mem
    if mp.physaddr = 0 then none
    else if [table 0, table 1, table 2, table 3] ≠ [80, 67, 77, 80] then none
    else if table 6 ≠ 1 ∧ table 6 ≠ 4 then none
    else if sum table (length table) ≠ 0 then none
    else some mp

/-- The types of the table's entries. -/
inductive Entry
  | proc
  | bus
  | ioapic
  | iointr
  | lintr

def Entry.ofByte (type : UInt8) : Option Entry :=
  if type = 0 then some .proc
  else if type = 1 then some .bus
  else if type = 2 then some .ioapic
  else if type = 3 then some .iointr
  else if type = 4 then some .lintr
  else none

/-- How far the walk moves: `sizeof(struct mpproc)` for a processor, 8 for the others. -/
def Entry.size : Entry → Nat
  | .proc => 20
  | .bus | .ioapic | .iointr | .lintr => 8

/-- The variables `mpinit` fills; `cpus` are the APIC ids. -/
structure State where
  cpus : Nat → UInt8
  ncpu : Nat
  ioapicid : UInt8
  lapic : UInt32
  ismp : Bool

def State.addProc (s : State) (apicid : UInt8) : State :=
  if s.ncpu < NCPU then { s with cpus := Function.update s.cpus s.ncpu apicid, ncpu :=
    s.ncpu + 1 } else s

/-- The `switch` at `p`. Its default case leaves the `switch` only, with `p` where it was. -/
def entry (table : Nat → UInt8) (p : Nat) (s : State) : Nat × State :=
  match Entry.ofByte (table p) with
  | some .proc => (p + Entry.proc.size, s.addProc (table (p + 1)))
  | some .ioapic => (p + Entry.ioapic.size, { s with ioapicid := table (p + 1) })
  | some .bus | some .iointr | some .lintr => (p + 8, s)
  | none => (p, { s with ismp := false })

/-- A round of the loop. -/
def entries (table : Nat → UInt8) (state : Nat × State) : Loop.Round (Nat × State) (Nat × State) :=
  if state.1 < length table then .again (entry table state.1 state.2) else .leave state

/-- Where the loop starts. -/
def start (table : Nat → UInt8) (s : State) : Nat × State :=
  (HEADER, { s with ismp := true, lapic := lapicaddr table })

/-- `mpinit`, whose loop is given a number of rounds. Its result has the bytes written to ports,
`imcr` being what port 0x23 reads as. -/
def mpinit (mem : Nat → UInt8) (mp : Option Pointer) (imcr : UInt8) (s : State) (rounds : Nat) :
    Option (Outcome (State × List (Nat × UInt8))) :=
  match mpconfig mem mp with
  | none => some (.panic "Expect to run on an SMP")
  | some mp =>
    match Loop.run (entries (mp.table mem)) rounds (start (mp.table mem) s) with
    | none => none
    | some (_, s) =>
      if s.ismp = false then some (.panic "Didn't find a suitable machine")
      else if mp.imcrp ≠ 0 then some (.ok (s, [(0x22, 0x70), (0x23, imcr ||| 1)]))
      else some (.ok (s, []))

/-- Every entry from `p` to the end of the table is of a known type. -/
inductive Known (table : Nat → UInt8) : Nat → Prop
  | finish {p : Nat} (consumed : length table ≤ p) : Known table p
  | next {p : Nat} {kind : Entry} (type : Entry.ofByte (table p) = some kind)
      (rest : Known table (p + kind.size)) : Known table p

section Walk

variable {table : Nat → UInt8}

theorem addProc_ismp (s : State) (apicid : UInt8) : (s.addProc apicid).ismp = s.ismp := by
  unfold State.addProc
  split <;> rfl

theorem addProc_ncpu {s : State} (apicid : UInt8) (bounded : s.ncpu ≤ NCPU) :
    (s.addProc apicid).ncpu ≤ NCPU := by
  grind [State.addProc]

theorem entry_known {p : Nat} {kind : Entry} (type : Entry.ofByte (table p) = some kind)
    (s : State) :
    (entry table p s).1 = p + kind.size ∧ (entry table p s).2.ismp = s.ismp := by
  unfold entry
  rw [type]
  cases kind with
  | proc => exact ⟨rfl, addProc_ismp s _⟩
  | bus | ioapic | iointr | lintr => exact ⟨rfl, rfl⟩

theorem entry_unknown {p : Nat} (type : Entry.ofByte (table p) = none) (s : State) :
    (entry table p s).1 = p := by
  unfold entry
  rw [type]

theorem entry_ncpu (p : Nat) {s : State} (bounded : s.ncpu ≤ NCPU) :
    (entry table p s).2.ncpu ≤ NCPU := by
  grind [entry, addProc_ncpu]

/-- A table of known entries is walked to its end. -/
theorem entries_end {p : Nat} (s : State) (known : Known table p) (machine : s.ismp = true) :
    ∃ last, (length table ≤ last.1 ∧ last.2.ismp = true) ∧
      ∀ rounds > length table - p, Loop.run (entries table) rounds (p, s) = some last := by
  apply Loop.run_ends (fun state => Known table state.1 ∧ state.2.ismp = true)
    (fun state => length table - state.1) _ (p, s)
  · exact ⟨known, machine⟩
  · rintro ⟨p, s⟩ ⟨known, machine⟩
    unfold entries
    split
    · rename_i inside
      cases known with
      | finish consumed => exact absurd inside (Nat.not_lt.mpr consumed)
      | @next _ kind type rest =>
        have moved := entry_known type s
        have positive : 0 < kind.size := by cases kind <;> decide
        refine ⟨⟨?_, moved.2.trans machine⟩, ?_⟩
        · rw [moved.1]
          exact rest
        · dsimp only at inside moved ⊢
          omega
    · exact ⟨by omega, machine⟩

/-- At an entry of another type the walk stands still. -/
theorem entries_diverge {p : Nat} (s : State) (stray : ¬ Known table p) (rounds : Nat) :
    Loop.run (entries table) rounds (p, s) = none := by
  apply Loop.run_diverges (fun state => ¬ Known table state.1) _ stray
  rintro ⟨p, s⟩ stray
  have inside : p < length table := by
    by_contra consumed
    exact stray (.finish (by omega))
  refine ⟨entry table p s, if_pos inside, ?_⟩
  cases type : Entry.ofByte (table p) with
  | none =>
    rw [entry_unknown type]
    exact stray
  | some kind =>
    rw [(entry_known type s).1]
    exact fun rest => stray (.next type rest)

theorem entries_ncpu {state : Nat × State} (bounded : state.2.ncpu ≤ NCPU) (k : Nat) :
    ((entry table).uncurry^[k] state).2.ncpu ≤ NCPU := by
  induction k with
  | zero => exact bounded
  | succ k ih =>
    rw [Function.iterate_succ_apply']
    exact entry_ncpu _ ih

end Walk

section Init

variable (mem : Nat → UInt8) (found : Option Pointer) (imcr : UInt8) (s : State) (mp : Pointer)

/-- How `mpinit` is to end: its walk leaves with every entry consumed, or with `ismp` cleared
and then the panic. -/
def Ends : Prop :=
  ∃ rounds p s' result, Loop.run (entries (mp.table mem)) rounds (start (mp.table mem) s) =
    some (p, s') ∧
    mpinit mem found imcr s rounds = some result ∧
    ((length (mp.table mem) ≤ p ∧ ∃ ports, result = .ok (s', ports)) ∨
      (s'.ismp = false ∧ result = .panic "Didn't find a suitable machine"))

/-- From a table `mpconfig` accepts `mpinit` returns exactly when all its entries are of known
types, and no number of rounds counts more processors than there is room for. -/
theorem mpinit_walk (valid : mpconfig mem found = some mp) (bounded : s.ncpu ≤ NCPU) :
    (Ends mem found imcr s mp ↔ Known (mp.table mem) HEADER) ∧
    ∀ k, ((entry (mp.table mem)).uncurry^[k] (start (mp.table mem) s)).2.ncpu ≤ NCPU := by
  refine ⟨⟨fun ends => ?_, fun known => ?_⟩, entries_ncpu bounded⟩
  · obtain ⟨rounds, p, s', result, left, rest⟩ := ends
    by_contra stray
    rw [start, entries_diverge _ stray] at left
    cases left
  · obtain ⟨⟨p, s'⟩, ⟨consumed, machine⟩, runs⟩ :=
      entries_end (start (mp.table mem) s).2 known rfl
    have left : Loop.run (entries (mp.table mem)) _ (start (mp.table mem) s) = _ :=
      runs _ (Nat.lt_succ_self _)
    dsimp only at consumed machine
    by_cases imcrp : mp.imcrp ≠ 0
    · refine ⟨_, p, s', .ok (s', [(0x22, 0x70), (0x23, imcr ||| 1)]), left, ?_,
        .inl ⟨consumed, _, rfl⟩⟩
      simp only [mpinit, valid, left, machine, Bool.true_eq_false, if_false, if_pos imcrp]
    · refine ⟨_, p, s', .ok (s', []), left, ?_, .inl ⟨consumed, _, rfl⟩⟩
      simp only [mpinit, valid, left, machine, Bool.true_eq_false, if_false, if_neg imcrp]

end Init

/-- A table of one entry, of the given type, and its checksum. -/
def oneEntry (type checksum : UInt8) (a : Nat) : UInt8 :=
  ([0, 80, 67, 77, 80, 45, 0, 1, checksum] ++ List.replicate 36 0 ++ [type]).getD a 0

def booting : State := { cpus := fun _ => 0, ncpu := 0, ioapicid := 0, lapic := 0, ismp := false }

/-- With one entry of type 5 the walk never leaves. -/
theorem mpinit_walk_stands :
    ¬ ∀ (mem : Nat → UInt8) (found : Option Pointer) (imcr : UInt8) (s : State) (mp : Pointer),
      mpconfig mem found = some mp → s.ncpu ≤ NCPU → Ends mem found imcr s mp := by
  intro ends
  obtain ⟨rounds, p, s', result, left, rest⟩ :=
    ends (oneEntry 5 157) (some ⟨1, 0⟩) 0 booting ⟨1, 0⟩ (by decide +kernel) (by decide)
  rw [start, entries_diverge] at left
  · cases left
  · intro known
    cases known with
    | finish consumed => exact absurd consumed (by decide)
    | next type rest =>
      rw [show Entry.ofByte _ = none from rfl] at type
      cases type

/-- A processor with APIC id 7, and a bus. -/
def twoEntries (a : Nat) : UInt8 :=
  ([0, 80, 67, 77, 80, 72, 0, 1, 127] ++ List.replicate 36 0 ++ [0, 7] ++ List.replicate 18 0 ++
    [1] : List UInt8).getD a 0

theorem mpinit_walk_two : Ends twoEntries (some ⟨1, 0⟩) 0 booting ⟨1, 0⟩ ∧
    ∀ k, ((entry (Pointer.table twoEntries ⟨1, 0⟩)).uncurry^[k]
      (start (Pointer.table twoEntries ⟨1, 0⟩) booting)).2.ncpu ≤ NCPU := by
  have known : Known (Pointer.table twoEntries ⟨1, 0⟩) HEADER :=
    .next (show Entry.ofByte _ = some .proc from rfl)
      (.next (show Entry.ofByte _ = some .bus from rfl) (.finish (by decide +kernel)))
  obtain ⟨ends, bounded⟩ := mpinit_walk twoEntries (some ⟨1, 0⟩) 0 booting ⟨1, 0⟩
    (by decide +kernel) (by decide)
  exact ⟨ends.mpr known, bounded⟩

end Xv6.Mp
