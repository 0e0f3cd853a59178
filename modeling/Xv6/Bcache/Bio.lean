import Xv6.Lib.Ring
import Xv6.Log.Ops

/- The buffer cache of bio.c over the disk of memide.c, used by any number of
processes. A call is cut into steps where it releases `bcache.lock` or waits for a
sleep-lock, so that any two calls can interleave there. -/
namespace Xv6.Bio

open Ring

/-- A link of the buffer list; `none` is `&bcache.head`. -/
abbrev Node := Option (Fin NBUF)

/-- `lock` is the pid that holds the sleep-lock. -/
structure Buf (Data : Type) where
  valid : Bool
  dirty : Bool
  dev : Nat
  blockno : Nat
  lock : Option Nat
  refcnt : Nat
  data : Data

structure Bcache (Data : Type) where
  buf : Fin NBUF → Buf Data
  links : Links Node

variable {Data : Type}

def Bcache.set (c : Bcache Data) (b : Fin NBUF) (buf : Buf Data) : Bcache Data :=
  { c with buf := Function.update c.buf b buf }

/-- The buffers in zeroed memory, linked by `binit`. -/
def binit (zero : Data) : Bcache Data where
  buf := fun _ => ⟨false, false, 0, 0, none, 0, zero⟩
  links := (List.finRange NBUF).foldl (fun links b => links.insertAfter none (some b))
    (Links.alone ⟨id, id⟩ none)

/-- The buffers from `head.next` along `next`. The list holds NBUF of them. -/
def Bcache.forward (c : Bcache Data) : List (Fin NBUF) :=
  (walk c.links.next none NBUF (c.links.next none)).reduceOption

/-- The buffers from `head.prev` along `prev`. -/
def Bcache.backward (c : Bcache Data) : List (Fin NBUF) :=
  (walk c.links.prev none NBUF (c.links.prev none)).reduceOption

/-- `bget` up to its release of `bcache.lock`. -/
def bget (c : Bcache Data) (dev blockno : Nat) : Outcome (Fin NBUF × Bcache Data) :=
  match c.forward.find? fun b => (c.buf b).dev = dev ∧ (c.buf b).blockno = blockno with
  | some b => .ok (b, c.set b { c.buf b with refcnt := (c.buf b).refcnt + 1 })
  | none =>
    match c.backward.find? fun b => (c.buf b).refcnt = 0 ∧ (c.buf b).dirty = false with
    | some b =>
      .ok (b, c.set b { c.buf b with
        dev := dev
        blockno := blockno
        valid := false
        dirty := false
        refcnt := 1 })
    | none => .panic "bget: no buffers"

/-- `iderw` of memide.c, called by process `p` on the buffer `b`. -/
def iderw (disk : Nat → Data) (disksize p : Nat) (b : Buf Data) :
    Outcome (Buf Data × (Nat → Data)) :=
  if b.lock ≠ some p then .panic "iderw: buf not locked"
  else if b.valid = true ∧ b.dirty = false then .panic "iderw: nothing to do"
  else if b.dev ≠ 1 then .panic "iderw: request not for disk 1"
  else if disksize ≤ b.blockno then .panic "iderw: block out of range"
  else if b.dirty then
    .ok ({ b with dirty := false, valid := true }, Function.update disk b.blockno b.data)
  else .ok ({ b with data := disk b.blockno, valid := true }, disk)

/-- The end of `brelse`, under `bcache.lock`. -/
def brelseUnlocked (c : Bcache Data) (b : Fin NBUF) : Bcache Data :=
  let c := c.set b { c.buf b with refcnt := (c.buf b).refcnt - 1 }
  if (c.buf b).refcnt = 0 then
    -- no one is waiting for it.
    { c with links := (c.links.remove (some b)).insertAfter none (some b) }
  else c

/-- Where a process is inside a call: after `bget` released `bcache.lock` and before
`acquiresleep`, before the test of B_VALID in `bread`, past the checks of `log_write`,
in `brelse` after `releasesleep`. -/
inductive Pc where
  | idle
  | got (dev blockno : Nat) (b : Fin NBUF)
  | locked (dev blockno : Nat) (b : Fin NBUF)
  | logging (b : Fin NBUF)
  | released (b : Fin NBUF)
  deriving DecidableEq

structure Machine (Data : Type) where
  cache : Bcache Data
  disk : Nat → Data
  disksize : Nat
  log : Log.LogState
  pc : Nat → Pc

/-- What process `p` does next. `commit` of log.c is a call of `endOp`, then the
process's own breads, modifications, bwrites and brelses, then `commit` and `finish`. -/
inductive Event (Data : Type) where
  | bget (p dev blockno : Nat)
  | acquiresleep (p : Nat)
  | bread (p : Nat)
  | modify (p : Nat) (b : Fin NBUF) (data : Data)
  | logWrite (p : Nat) (b : Fin NBUF)
  | absorb (p : Nat)
  | bwrite (p : Nat) (b : Fin NBUF)
  | releasesleep (p : Nat) (b : Fin NBUF)
  | brelse (p : Nat)
  | beginOp (p : Nat)
  | endOp (p : Nat)
  | commit (p : Nat)
  | finish (p : Nat)

def Machine.setPc (m : Machine Data) (p : Nat) (pc : Pc) : Machine Data :=
  { m with pc := Function.update m.pc p pc }

def Machine.setBuf (m : Machine Data) (b : Fin NBUF) (buf : Buf Data) : Machine Data :=
  { m with cache := m.cache.set b buf }

/-- A call that leaves the cache alone. -/
def Machine.logCall (m : Machine Data) (p : Nat) (event : Log.OpEvent) : Outcome (Machine Data) :=
  if m.pc p = .idle then
    (Log.opStep m.log event).map fun log => { m with log := log }
  else .blocked

/-- An in-place change of the data of a buffer the process holds. -/
def modify (m : Machine Data) (p : Nat) (b : Fin NBUF) (data : Data) : Outcome (Machine Data) :=
  if m.pc p = .idle ∧ (m.cache.buf b).lock = some p then
    .ok (m.setBuf b { m.cache.buf b with data := data })
  else .blocked

def acquiresleep (m : Machine Data) (p : Nat) : Outcome (Machine Data) :=
  match m.pc p with
  | .got dev blockno b =>
    if (m.cache.buf b).lock = none then
      .ok ((m.setBuf b { m.cache.buf b with lock := some p }).setPc p (.locked dev blockno b))
    else .blocked
  | _ => .blocked

/-- `bread` after its call of `bget`. -/
def bread (m : Machine Data) (p : Nat) : Outcome (Machine Data) :=
  match m.pc p with
  | .locked _ _ b =>
    if (m.cache.buf b).valid then .ok (m.setPc p .idle)
    else
      (iderw m.disk m.disksize p (m.cache.buf b)).map fun (buf, disk) =>
        ({ m with disk := disk }.setBuf b buf).setPc p .idle
  | _ => .blocked

def bwrite (m : Machine Data) (p : Nat) (b : Fin NBUF) : Outcome (Machine Data) :=
  if m.pc p = .idle then
    if (m.cache.buf b).lock = some p then
      (iderw m.disk m.disksize p { m.cache.buf b with dirty := true }).map fun (buf, disk) =>
        { m with disk := disk }.setBuf b buf
    else .panic "bwrite"
  else .blocked

/-- `brelse` up to and with its call of `releasesleep`. -/
def brelseLocked (m : Machine Data) (p : Nat) (b : Fin NBUF) : Outcome (Machine Data) :=
  if m.pc p = .idle then
    if (m.cache.buf b).lock = some p then
      .ok ((m.setBuf b { m.cache.buf b with lock := none }).setPc p (.released b))
    else .panic "brelse"
  else .blocked

def logWriteCheck (m : Machine Data) (p : Nat) (b : Fin NBUF) : Outcome (Machine Data) :=
  if m.pc p = .idle then
    (Log.logWriteCheck m.log p (m.cache.buf b).blockno).map fun log =>
      { m with log := log }.setPc p (.logging b)
  else .blocked

def logWriteAbsorb (m : Machine Data) (p : Nat) : Outcome (Machine Data) :=
  match m.pc p with
  | .logging b =>
    (Log.logWriteAbsorb m.log p).map fun log =>
      ({ m with log := log }.setBuf b { m.cache.buf b with dirty := true }).setPc p .idle
  | _ => .blocked

def step (m : Machine Data) : Event Data → Outcome (Machine Data)
  | .bget p dev blockno =>
    if m.pc p = .idle then
      (Bio.bget m.cache dev blockno).map fun (b, cache) =>
        { m with cache := cache }.setPc p (.got dev blockno b)
    else .blocked
  | .acquiresleep p => Bio.acquiresleep m p
  | .bread p => Bio.bread m p
  | .modify p b data => Bio.modify m p b data
  | .logWrite p b => logWriteCheck m p b
  | .absorb p => logWriteAbsorb m p
  | .bwrite p b => Bio.bwrite m p b
  | .releasesleep p b => brelseLocked m p b
  | .brelse p =>
    match m.pc p with
    | .released b => .ok ({ m with cache := brelseUnlocked m.cache b }.setPc p .idle)
    | _ => .blocked
  | .beginOp p => m.logCall p (.beginOp p)
  | .endOp p => m.logCall p (.endOp p)
  | .commit p => m.logCall p (.commit p)
  | .finish p => m.logCall p (.finish p)

/-- The machine after `binit`. -/
def boot (zero : Data) (disk : Nat → Data) (disksize : Nat) (log : Log.LogState) :
    Machine Data where
  cache := binit zero
  disk := disk
  disksize := disksize
  log := log
  pc := fun _ => .idle

@[simp, grind =] theorem setPc_pc (m : Machine Data) (p q : Nat) (pc : Pc) :
    (m.setPc p pc).pc q = if q = p then pc else m.pc q := by
  simp only [Machine.setPc, Function.update_apply]

@[simp, grind =] theorem setPc_cache (m : Machine Data) (p : Nat) (pc : Pc) :
    (m.setPc p pc).cache = m.cache := rfl

@[simp, grind =] theorem setPc_disk (m : Machine Data) (p : Nat) (pc : Pc) :
    (m.setPc p pc).disk = m.disk := rfl

@[simp, grind =] theorem set_buf (c : Bcache Data) (b i : Fin NBUF) (buf : Buf Data) :
    (c.set b buf).buf i = if i = b then buf else c.buf i := by
  simp only [Bcache.set, Function.update_apply]

@[simp, grind =] theorem set_links (c : Bcache Data) (b : Fin NBUF) (buf : Buf Data) :
    (c.set b buf).links = c.links := rfl

@[simp, grind =] theorem setBuf_cache (m : Machine Data) (b : Fin NBUF) (buf : Buf Data) :
    (m.setBuf b buf).cache = m.cache.set b buf := rfl

@[simp, grind =] theorem setBuf_pc (m : Machine Data) (b : Fin NBUF) (buf : Buf Data) (p : Nat) :
    (m.setBuf b buf).pc p = m.pc p := rfl

@[simp, grind =] theorem setBuf_disk (m : Machine Data) (b : Fin NBUF) (buf : Buf Data) :
    (m.setBuf b buf).disk = m.disk := rfl

/-- What a `bget` that returns has done: found the block, or given it a buffer that is
neither in use nor dirty. -/
theorem bget_ok {c c' : Bcache Data} {dev blockno : Nat} {b : Fin NBUF}
    (taken : bget c dev blockno = .ok (b, c')) :
    ((c.buf b).dev = dev ∧ (c.buf b).blockno = blockno ∧
        c' = c.set b { c.buf b with refcnt := (c.buf b).refcnt + 1 }) ∨
      ((∀ i ∈ c.forward, ¬ ((c.buf i).dev = dev ∧ (c.buf i).blockno = blockno)) ∧
        (c.buf b).refcnt = 0 ∧ (c.buf b).dirty = false ∧
        c' = c.set b { c.buf b with
          dev := dev
          blockno := blockno
          valid := false
          dirty := false
          refcnt := 1 }) := by
  unfold bget at taken
  split at taken
  · rename_i i found
    cases taken
    have same := List.find?_some found
    simp only [decide_eq_true_eq] at same
    exact Or.inl ⟨same.1, same.2, rfl⟩
  · rename_i missing
    split at taken
    · rename_i i found
      cases taken
      have free := List.find?_some found
      simp only [decide_eq_true_eq] at free
      refine Or.inr ⟨fun i member => ?_, free.1, free.2, rfl⟩
      have skipped := List.find?_eq_none.mp missing i member
      simpa only [decide_eq_true_eq] using skipped
    · cases taken

/-- A disk request that returns has the buffer valid and clean, and the disk holds its data. -/
theorem iderw_ok {disk disk' : Nat → Data} {disksize p : Nat} {b b' : Buf Data}
    (taken : iderw disk disksize p b = .ok (b', disk')) : b.lock = some p ∧
      ((b.dirty = true ∧ b' = { b with dirty := false, valid := true } ∧
          disk' = Function.update disk b.blockno b.data) ∨
        (b.dirty = false ∧ b' = { b with data := disk b.blockno, valid := true } ∧ disk' = disk))
          := by
  unfold iderw at taken
  split at taken
  · cases taken
  rename_i holding
  refine ⟨by simpa using holding, ?_⟩
  split at taken
  · cases taken
  split at taken
  · cases taken
  split at taken
  · cases taken
  · grind

end Xv6.Bio
