import Mathlib.Data.Nat.Init
import Xv6.Fs.Dirent

/- The directory and path layers of fs.c. -/
namespace Xv6.Fs

open Exec hiding panic
open Namecache CString

def namecmp (s t : List UInt8) : Int := strncmp s t DIRSIZ

/-- The offsets of a loop `for(off = first; off < size; off += sizeof(de))`. -/
def offsets (first size : Nat) : List Nat :=
  (List.range ((size - first + (DIRENTSIZE - 1)) / DIRENTSIZE)).map fun k => first + DIRENTSIZE * k

/-- One `readi` of an entry; the caller panics with `message` when it falls short. -/
def readDirent (message : String) (i : Fin NINODE) (off : Nat) : Exec State Dirent := do
  let (n, bytes) ← readi i off DIRENTSIZE
  if n ≠ DIRENTSIZE then Exec.panic message
  else return Dirent.ofBytes bytes

def cacheName (i : Fin NINODE) (name : List UInt8) (inum : Nat) : Exec State Unit :=
  modify fun s => { s with
    namecache := namecacheAdd s.namecache (s.icache i).dev (s.icache i).inum name inum }

/-- The inode, and the offset that goes to `*poff`. -/
def dirlookup (i : Fin NINODE) (name : List UInt8) : Exec State (Option (Fin NINODE × Nat)) := do
  let s ← get
  let dp := s.icache i
  if dp.din.type ≠ .dir then Exec.panic "dirlookup not DIR"
  else
    let inum := namecacheLookup s.namecache dp.dev dp.inum name
    if inum ≠ 0 then
      let ip ← iget dp.dev inum
      return some (ip, 0)
    else loop (offsets 0 dp.din.size)
where
  loop : List Nat → Exec State (Option (Fin NINODE × Nat))
    | [] => return none
    | off :: rest => do
      let de ← readDirent "dirlookup read" i off
      if de.inum = 0 then loop rest
      else if namecmp name de.name = 0 then
        -- entry matches path element
        cacheName i name de.inum
        let s ← get
        let ip ← iget (s.icache i).dev de.inum
        return some (ip, off)
      else loop rest

def dirlink (p : Fin NPROC) (i : Fin NINODE) (name : List UInt8) (inum : Nat) : Exec State Int := do
  -- Check that name is not present.
  match ← dirlookup i name with
  | some (ip, _) =>
    iput p ip
    return -1
  | none =>
    let s ← get
    let off ← emptySlot (offsets 0 (s.icache i).din.size)
    let n ← writei i (Dirent.bytes ⟨inum, strncpy name DIRSIZ⟩) off
    if n ≠ DIRENTSIZE then Exec.panic "dirlink"
    else
      cacheName i name inum
      return 0
where
  /-- Look for an empty dirent. -/
  emptySlot : List Nat → Exec State Nat
    | [] => do
      let s ← get
      return DIRENTSIZE * (offsets 0 (s.icache i).din.size).length
    | off :: rest => do
      let de ← readDirent "dirlink read" i off
      if de.inum = 0 then return off else emptySlot rest

/-- The next path element, at most DIRSIZ bytes of it, and the path behind it. -/
def skipelem (path : List UInt8) : Option (List UInt8 × List UInt8) :=
  let path := path.dropWhile (· = 47)
  if deref path = 0 then none
  else
    let s := path.takeWhile fun c => c ≠ 47 ∧ c ≠ 0
    let path := path.dropWhile fun c => c ≠ 47 ∧ c ≠ 0
    some (s.take DIRSIZ, path.dropWhile (· = 47))

/-- The elements that `skipelem` takes from the path, one call after the other. -/
def elements (path : List UInt8) : List (List UInt8) := take path.length path
where
  take : Nat → List UInt8 → List (List UInt8)
    | 0, _ => []
    | fuel + 1, path =>
      match skipelem path with
      | some (name, rest) => name :: take fuel rest
      | none => []

/-- The loop of `namex`, over the elements that are left of the path. -/
def namexLoop (p : Fin NPROC) (nameiparent : Bool) :
    Fin NINODE → List (List UInt8) → Exec State (Option (Fin NINODE × List UInt8))
  | ip, [] =>
    if nameiparent then do
      iput p ip
      return none
    else return some (ip, [])
  | ip, name :: rest => do
    ilock p ip
    let s ← get
    if (s.icache ip).din.type ≠ .dir then
      iunlockput p ip
      return none
    else if nameiparent ∧ rest = [] then
      -- Stop one level early.
      iunlock p ip
      return some (ip, name)
    else
      match ← dirlookup ip name with
      | none =>
        iunlockput p ip
        return none
      | some (next, _) =>
        iunlockput p ip
        namexLoop p nameiparent next rest

/-- The inode, and the last element of the path if its parent is asked for. -/
def namex (p : Fin NPROC) (path : List UInt8) (nameiparent : Bool) :
    Exec State (Option (Fin NINODE × List UInt8)) := do
  if deref path = 47 then
    let ip ← iget ROOTDEV ROOTINO
    namexLoop p nameiparent ip (elements path)
  else
    let s ← get
    match (s.procs p).cwd with
    | some cwd =>
      let ip ← idup cwd
      namexLoop p nameiparent ip (elements path)
    | none => wait

def namei (p : Fin NPROC) (path : List UInt8) : Exec State (Option (Fin NINODE)) := do
  let found ← namex p path false
  return found.map Prod.fst

def nameiparent (p : Fin NPROC) (path : List UInt8) :
    Exec State (Option (Fin NINODE × List UInt8)) :=
  namex p path true

/-- A step of `skipelem` makes the path shorter, so `elements` does not run out of fuel. -/
theorem skipelem_length {path name rest : List UInt8} (taken : skipelem path = some (name, rest)) :
    rest.length < path.length := by
  unfold skipelem at taken
  dsimp only at taken
  split at taken
  · cases taken
  rename_i nonzero
  obtain ⟨_, rfl⟩ := taken
  have front : (path.dropWhile fun x => decide (x = 47)).length ≤ path.length :=
    (List.dropWhile_suffix _).length_le
  cases start : path.dropWhile fun x => decide (x = 47) with
  | nil =>
    rw [start] at nonzero
    exact (nonzero rfl).elim
  | cons c tail =>
    rw [start] at nonzero front
    have other : c ≠ 47 := by
      have head := List.head?_dropWhile_not (fun x => decide (x = 47)) path
      rw [start] at head
      simpa using head
    have drops : ((c :: tail).dropWhile fun c => decide (c ≠ 47 ∧ c ≠ 0)) =
        tail.dropWhile fun c => decide (c ≠ 47 ∧ c ≠ 0) := by
      simp only [deref_cons] at nonzero
      simp [other, nonzero]
    rw [drops]
    have last : ((tail.dropWhile fun c => decide (c ≠ 47 ∧ c ≠ 0)).dropWhile
        fun x => decide (x = 47)).length ≤ tail.length :=
      (List.dropWhile_suffix _).length_le.trans (List.dropWhile_suffix _).length_le
    rw [List.length_cons] at front
    omega

theorem elements_take_succ {fuel : Nat} {path : List UInt8} (enough : path.length ≤ fuel) :
    elements.take (fuel + 1) path = elements.take fuel path := by
  induction fuel generalizing path with
  | zero =>
    have empty : path = [] := List.length_eq_zero_iff.mp (by omega)
    subst empty
    rfl
  | succ fuel ih =>
    rw [elements.take, elements.take]
    cases taken : skipelem path with
    | none => rfl
    | some pair =>
      have shorter := skipelem_length taken
      exact congrArg (pair.1 :: ·) (ih (by omega))

theorem elements_take {fuel : Nat} {path : List UInt8} (enough : path.length ≤ fuel) :
    elements.take fuel path = elements path := by
  induction fuel, enough using Nat.le_induction with
  | base => rfl
  | succ fuel enough ih => rw [elements_take_succ enough, ih]

/-- The elements of a path are the first one and those of the path behind it. -/
theorem elements_eq (path : List UInt8) :
    elements path = match skipelem path with
      | some (name, rest) => name :: elements rest
      | none => [] := by
  rw [← elements_take (Nat.le_succ path.length), elements.take]
  cases taken : skipelem path with
  | none => rfl
  | some pair =>
    have shorter := skipelem_length taken
    exact congrArg (pair.1 :: ·) (elements_take (Nat.le_of_lt shorter))

end Xv6.Fs
