import Xv6.Lib.Runs
import Xv6.Lib.Store
import Xv6.Log.Header

/- commit and recover_from_log of log.c, one block write at a time, with crashes
between any two of them. Block contents are arbitrary; the header block is kept as
the struct it holds. -/
namespace Xv6.Log

open Runs Store

variable {i b c : Nat}

/-- log.start and log.size. -/
structure Geometry where
  start : Nat
  size : Nat

def Geometry.InLog (g : Geometry) (blockno : Nat) : Prop :=
  g.start ≤ blockno ∧ blockno < g.start + g.size

structure Disk (β : Type) where
  header : Logheader
  data : Nat → β

/-- Where the code stands. In `writeLog`, `installTrans` and `recoverInstall` the
next block write is the one of iteration `tail`; `eraseHead` is the second
`write_head` of commit, `recoverHead` the one of recover_from_log. -/
inductive Phase where
  | running
  | writeLog (tail : Nat)
  | writeHead
  | installTrans (tail : Nat)
  | eraseHead
  | down
  | recoverInstall (tail : Nat)
  | recoverHead
  deriving DecidableEq

/-- `cache` is what `bread` returns for each block; it and `lh` are lost in a crash. -/
structure Machine (β : Type) where
  disk : Disk β
  cache : Nat → β
  lh : Logheader
  phase : Phase

inductive Event (β : Type) where
  | logWrite (blockno : Nat) (value : β)
  | commit
  | blockWrite
  | crash
  | boot

variable {β : Type}

/-- `bwrite` of a buffer that holds `value`. -/
def Machine.bwrite (m : Machine β) (blockno : Nat) (value : β) : Machine β :=
  { m with
    cache := Function.update m.cache blockno value
    disk := { m.disk with data := Function.update m.disk.data blockno value } }

/-- `write_head`: the first `n` entries of the in-memory header, the others kept. -/
def Machine.writeHead (m : Machine β) : Machine β :=
  { m with disk := { m.disk with header :=
      { n := m.lh.n
        block := fun i => if i < m.lh.n then m.lh.block i else m.disk.header.block i } } }

/-- `read_head`, on a machine whose buffers are still empty. -/
def Machine.readHead (m : Machine β) : Machine β :=
  { m with
    cache := m.disk.data
    lh := { n := m.disk.header.n
            block := fun i =>
            if i < m.disk.header.n then m.disk.header.block i else m.lh.block i } }

/-- Iteration `tail` of `install_trans`. -/
def Machine.install (g : Geometry) (m : Machine β) (tail : Nat) : Machine β :=
  m.bwrite (m.lh.block tail) (m.cache (g.start + tail + 1))

def Machine.clear (m : Machine β) : Machine β := { m with lh := { m.lh with n := 0 } }

def Machine.goto (m : Machine β) (phase : Phase) : Machine β := { m with phase := phase }

/-- The next block write of commit or of recover_from_log. -/
def blockWrite (g : Geometry) (m : Machine β) : Option (Machine β) :=
  match m.phase with
  | .writeLog tail =>
    let m := m.bwrite (g.start + tail + 1) (m.cache (m.lh.block tail))
    some (m.goto (if tail + 1 < m.lh.n then .writeLog (tail + 1) else .writeHead))
  | .writeHead => some (m.writeHead.goto (.installTrans 0))
  | .installTrans tail =>
    let m := m.install g tail
    some (if tail + 1 < m.lh.n then m.goto (.installTrans (tail + 1))
      else m.clear.goto .eraseHead)
  | .eraseHead => some (m.writeHead.goto .running)
  | .recoverInstall tail =>
    let m := m.install g tail
    some (if tail + 1 < m.lh.n then m.goto (.recoverInstall (tail + 1))
      else m.clear.goto .recoverHead)
  | .recoverHead => some (m.writeHead.goto .running)
  | .running | .down => none

def step (g : Geometry) (m : Machine β) : Event β → Option (Machine β)
  | .logWrite blockno value =>
    if m.phase = .running ∧ ¬ (LOGSIZE ≤ m.lh.n ∨ g.size ≤ m.lh.n + 1) then
      some { m with
        cache := Function.update m.cache blockno value
        lh := m.lh.absorb blockno }
    else none
  | .commit =>
    if m.phase = .running then
      some (if 0 < m.lh.n then m.goto (.writeLog 0) else m)
    else none
  | .blockWrite => blockWrite g m
  | .crash => some (m.goto .down)
  | .boot =>
    if m.phase = .down then
      let m := m.readHead
      some (if 0 < m.lh.n then m.goto (.recoverInstall 0) else m.clear.goto .recoverHead)
    else none

/-- The logged block lies outside the log area. -/
def HomeBlock (g : Geometry) (_ : Machine β) : Event β → Prop
  | .logWrite blockno _ => ¬ g.InLog blockno
  | _ => True

/-- What has happened, told from the events: the writes of the running transaction,
the transactions that `commit` was called for, and those of them whose header
write reached the disk. -/
structure History (β : Type) where
  pending : List (Nat × β)
  issued : List (List (Nat × β))
  committed : List (List (Nat × β))

def History.step (h : History β) (m : Machine β) : Event β → History β
  | .logWrite blockno value => { h with pending := h.pending ++ [(blockno, value)] }
  | .commit => if 0 < m.lh.n then { h with issued := h.issued ++ [h.pending] } else h
  | .blockWrite =>
    if m.phase = .writeHead then
      { h with pending := [], committed := h.committed ++ [h.pending] }
    else h
  | .crash => { h with pending := [] }
  | .boot => h

/-- The machine and its history after a list of events. -/
def track (g : Geometry) (state : Machine β × History β) (event : Event β) :
    Option (Machine β × History β) :=
  (step g state.1 event).map fun next => (next, state.2.step state.1 event)

/-- A disk from which recovery yields `home`: the header lists copied blocks whose
copies are in the log, and every block it does not list is already in place. -/
structure Recoverable (g : Geometry) (home : Nat → β) (d : Disk β) : Prop where
  fits : ∀ i < d.header.n, i + 1 < g.size
  outside : ∀ i < d.header.n, ¬ g.InLog (d.header.block i)
  copies : ∀ i < d.header.n, d.data (g.start + i + 1) = home (d.header.block i)
  rest : ∀ b, ¬ g.InLog b → b ∉ d.header.blocks → d.data b = home b

/-- The running transaction is in memory only: the disk header is empty. -/
structure InMemory (g : Geometry) (home : Nat → β) (m : Machine β) (pending : List (Nat × β)) :
    Prop where
  erased : m.disk.header.n = 0
  fits : ∀ i < m.lh.n, i + 1 < g.size
  outside : ∀ i < m.lh.n, ¬ g.InLog (m.lh.block i)
  keys : ∀ b, b ∈ pending.map Prod.fst ↔ b ∈ m.lh.blocks
  cached : ∀ b, ¬ g.InLog b → m.cache b = applyWrites home pending b

/-- The first `tail` copies of a committed transaction are in place. -/
structure Installing (g : Geometry) (home : Nat → β) (m : Machine β) (tail : Nat) : Prop where
  inside : tail < m.lh.n
  count : m.disk.header.n = m.lh.n
  named : ∀ i < m.lh.n, m.disk.header.block i = m.lh.block i
  copies : ∀ i < m.lh.n, m.cache (g.start + i + 1) = home (m.lh.block i)
  settled : ∀ b, ¬ g.InLog b → (∀ i, tail ≤ i → i < m.lh.n → m.lh.block i ≠ b) →
    m.cache b = home b ∧ m.disk.data b = home b

structure Installed (g : Geometry) (home : Nat → β) (m : Machine β) : Prop where
  cleared : m.lh.n = 0
  settled : ∀ b, ¬ g.InLog b → m.cache b = home b ∧ m.disk.data b = home b

/-- The first `tail` blocks of the transaction have been copied to the log. -/
def Copied (g : Geometry) (m : Machine β) (tail : Nat) : Prop :=
  ∀ i < tail, m.disk.data (g.start + i + 1) = m.cache (m.lh.block i) ∧
    m.cache (g.start + i + 1) = m.cache (m.lh.block i)

/-- What holds of the machine, besides `Recoverable`, while it stands in each phase. -/
def PhaseInv (g : Geometry) (home : Nat → β) (m : Machine β) (pending : List (Nat × β)) :
    Phase → Prop
  | .running => InMemory g home m pending
  | .writeLog tail => InMemory g home m pending ∧ tail < m.lh.n ∧ Copied g m tail
  | .writeHead => InMemory g home m pending ∧ 0 < m.lh.n ∧ Copied g m m.lh.n
  | .installTrans tail | .recoverInstall tail => pending = [] ∧ Installing g home m tail
  | .eraseHead | .recoverHead => pending = [] ∧ Installed g home m
  | .down => pending = []

/-- The home blocks after the committed transactions. -/
def home (initial : Nat → β) (h : History β) : Nat → β := applyBatches initial h.committed

structure Inv (g : Geometry) (initial : Nat → β) (state : Machine β × History β) : Prop where
  recoverable : Recoverable g (home initial state.2) state.1.disk
  phase : PhaseInv g (home initial state.2) state.1 state.2.pending state.1.phase

theorem log_block_inLog {g : Geometry} (fits : i + 1 < g.size) : g.InLog (g.start + i + 1) := by
  unfold Geometry.InLog
  omega

theorem ne_of_inLog {g : Geometry} (outside : ¬ g.InLog b) (inside : g.InLog c) : b ≠ c := by
  rintro rfl
  exact outside inside

@[simp] theorem bwrite_lh (m : Machine β) (b : Nat) (value : β) :
    (m.bwrite b value).lh = m.lh := rfl

@[simp] theorem bwrite_cache_self (m : Machine β) (b : Nat) (value : β) :
    (m.bwrite b value).cache b = value := Function.update_self _ _ _

@[simp] theorem bwrite_data_self (m : Machine β) (b : Nat) (value : β) :
    (m.bwrite b value).disk.data b = value := Function.update_self _ _ _

theorem bwrite_cache_of_ne (m : Machine β) (value : β) (apart : c ≠ b) :
    (m.bwrite b value).cache c = m.cache c := Function.update_of_ne apart _ _

theorem bwrite_data_of_ne (m : Machine β) (value : β) (apart : c ≠ b) :
    (m.bwrite b value).disk.data c = m.disk.data c := Function.update_of_ne apart _ _

/-- `write_log` touches the log area only, so the transaction stays as it was. -/
theorem InMemory.copy {g : Geometry} {home : Nat → β} {m : Machine β}
    {pending : List (Nat × β)} (inv : InMemory g home m pending) {tail : Nat}
    (inside : tail < m.lh.n) (value : β) :
    InMemory g home (m.bwrite (g.start + tail + 1) value) pending := by
  refine ⟨inv.erased, inv.fits, inv.outside, inv.keys, ?_⟩
  intro b outside
  have apart := ne_of_inLog outside (log_block_inLog (inv.fits tail inside))
  rw [bwrite_cache_of_ne m value apart]
  exact inv.cached b outside

theorem Copied.next {g : Geometry} {home : Nat → β} {m : Machine β}
    {pending : List (Nat × β)} (inv : InMemory g home m pending) {tail : Nat}
    (copied : Copied g m tail) (inside : tail < m.lh.n) :
    Copied g (m.bwrite (g.start + tail + 1) (m.cache (m.lh.block tail))) (tail + 1) := by
  intro i below
  have apart := ne_of_inLog (inv.outside i (by omega)) (log_block_inLog (inv.fits tail inside))
  rw [bwrite_lh, bwrite_cache_of_ne m _ apart]
  by_cases last : i = tail
  · subst last
    exact ⟨bwrite_data_self m _ _, bwrite_cache_self m _ _⟩
  · rw [bwrite_data_of_ne m _ (by omega), bwrite_cache_of_ne m _ (by omega)]
    exact copied i (by omega)

theorem Recoverable.of_erased {g : Geometry} {home : Nat → β} {d : Disk β}
    (erased : d.header.n = 0) (settled : ∀ b, ¬ g.InLog b → d.data b = home b) :
    Recoverable g home d := by
  refine ⟨?_, ?_, ?_, fun b outside _ => settled b outside⟩ <;>
    (omega)

theorem Recoverable.erased_data {g : Geometry} {home : Nat → β} {d : Disk β}
    (inv : Recoverable g home d) (erased : d.header.n = 0) (b : Nat) (outside : ¬ g.InLog b) :
    d.data b = home b := by
  grind [rest, mem_blocks]

/-- While the header is empty, a write to the log area is invisible to recovery. -/
theorem Recoverable.copy {g : Geometry} {home : Nat → β} {m : Machine β}
    {pending : List (Nat × β)} (recoverable : Recoverable g home m.disk)
    (inv : InMemory g home m pending) {tail : Nat} (inside : tail < m.lh.n) (value : β) :
    Recoverable g home (m.bwrite (g.start + tail + 1) value).disk := by
  refine Recoverable.of_erased inv.erased fun b outside => ?_
  have apart := ne_of_inLog outside (log_block_inLog (inv.fits tail inside))
  rw [bwrite_data_of_ne m value apart]
  exact recoverable.erased_data inv.erased b outside

@[simp] theorem writeHead_n (m : Machine β) : m.writeHead.disk.header.n = m.lh.n := rfl

theorem writeHead_block (m : Machine β) (below : i < m.lh.n) :
    m.writeHead.disk.header.block i = m.lh.block i := by
  simp only [Machine.writeHead, below, ↓reduceIte]

theorem writeHead_blocks (m : Machine β) : m.writeHead.disk.header.blocks = m.lh.blocks := by
  apply List.map_congr_left
  intro i inside
  exact writeHead_block m (List.mem_range.mp inside)

/-- The commit point: once the header is on the disk, recovery yields the new contents. -/
theorem Recoverable.commit {g : Geometry} {home : Nat → β} {m : Machine β}
    {pending : List (Nat × β)} (recoverable : Recoverable g home m.disk)
    (inv : InMemory g home m pending) (copied : Copied g m m.lh.n) :
    Recoverable g (applyWrites home pending) m.writeHead.disk := by
  refine ⟨inv.fits, ?_, ?_, ?_⟩
  · intro i below
    rw [writeHead_block m below]
    exact inv.outside i below
  · intro i below
    rw [writeHead_block m below, ← inv.cached _ (inv.outside i below)]
    exact (copied i below).1
  · intro b outside fresh
    rw [writeHead_blocks, ← inv.keys] at fresh
    rw [applyWrites_untouched home pending b fresh]
    exact recoverable.erased_data inv.erased b outside

theorem Installing.commit {g : Geometry} {home : Nat → β} {m : Machine β}
    {pending : List (Nat × β)} (recoverable : Recoverable g home m.disk)
    (inv : InMemory g home m pending) (copied : Copied g m m.lh.n)
    (nonempty : 0 < m.lh.n) : Installing g (applyWrites home pending) m.writeHead 0 := by
  refine ⟨nonempty, rfl, fun i below => writeHead_block m below, ?_, ?_⟩
  · intro i below
    exact (copied i below).2.trans (inv.cached _ (inv.outside i below))
  · intro b outside waiting
    refine ⟨inv.cached b outside, ?_⟩
    apply (recoverable.commit inv copied).rest b outside
    rw [writeHead_blocks, mem_blocks]
    rintro ⟨i, below, named⟩
    exact waiting i (Nat.zero_le i) below named

section Install

variable {g : Geometry} {home : Nat → β} {m : Machine β} {tail : Nat}
  (recoverable : Recoverable g home m.disk) (inv : Installing g home m tail)

include recoverable inv

/-- The block that iteration `tail` writes is a home block. -/
theorem Installing.target_outside (below : i < m.lh.n) : ¬ g.InLog (m.lh.block i) := by
  rw [← inv.named i below]
  exact recoverable.outside i (by rw [inv.count]; exact below)

theorem Installing.log_inLog (below : i < m.lh.n) : g.InLog (g.start + i + 1) :=
  log_block_inLog (recoverable.fits i (by rw [inv.count]; exact below))

/-- An install writes a home block the header lists, so recovery may start over. -/
theorem Recoverable.install : Recoverable g home (m.install g tail).disk := by
  refine ⟨recoverable.fits, recoverable.outside, ?_, ?_⟩
  · intro i below
    have inside : i < m.lh.n := by rw [← inv.count]; exact below
    have apart := ne_of_inLog (inv.target_outside recoverable inv.inside)
      (inv.log_inLog recoverable inside)
    rw [Machine.install, bwrite_data_of_ne m _ apart.symm]
    exact recoverable.copies i below
  · intro b outside fresh
    have apart : b ≠ m.lh.block tail := by
      rintro rfl
      apply fresh
      rw [mem_blocks]
      exact ⟨tail, inv.count.symm ▸ inv.inside, inv.named tail inv.inside⟩
    rw [Machine.install, bwrite_data_of_ne m _ apart]
    exact recoverable.rest b outside fresh

omit recoverable in
/-- After iteration `tail` its block is settled, unless it is listed again. -/
theorem Installing.settled_install (b : Nat) (outside : ¬ g.InLog b)
    (done : ∀ i, tail + 1 ≤ i → i < m.lh.n → m.lh.block i ≠ b) :
    (m.install g tail).cache b = home b ∧ (m.install g tail).disk.data b = home b := by
  by_cases target : b = m.lh.block tail
  · grind [Machine.install, bwrite_cache_self, bwrite_data_self, copies, inside]
  · grind [Machine.install, bwrite_cache_of_ne, bwrite_data_of_ne, settled]

theorem Installing.next (more : tail + 1 < m.lh.n) :
    Installing g home (m.install g tail) (tail + 1) := by
  refine ⟨more, inv.count, inv.named, ?_, inv.settled_install⟩
  intro i below
  have apart := ne_of_inLog (inv.target_outside recoverable inv.inside)
    (inv.log_inLog recoverable below)
  rw [Machine.install, bwrite_cache_of_ne m _ apart.symm]
  exact inv.copies i below

omit recoverable in
theorem Installing.finish (last : ¬ tail + 1 < m.lh.n) :
    Installed g home (m.install g tail).clear := by
  refine ⟨rfl, fun b outside => ?_⟩
  apply inv.settled_install b outside
  intro i lower upper
  omega

end Install

theorem Installed.erase {g : Geometry} {home : Nat → β} {m : Machine β}
    (inv : Installed g home m) : Recoverable g home m.writeHead.disk := by
  apply Recoverable.of_erased
  · rw [writeHead_n, inv.cleared]
  · exact fun b outside => (inv.settled b outside).2

theorem Installed.running {g : Geometry} {home : Nat → β} {m : Machine β}
    (inv : Installed g home m) : InMemory g home m.writeHead [] := by
  have empty : m.lh.n = 0 := inv.cleared
  refine ⟨?_, ?_, ?_, ?_, fun b outside => (inv.settled b outside).1⟩
  · rw [writeHead_n, empty]
  · intro i below
    change i < m.lh.n at below
    omega
  · intro i below
    change i < m.lh.n at below
    omega
  · intro b
    change _ ↔ b ∈ m.lh.blocks
    simp [mem_blocks, empty]

theorem InMemory.goto {g : Geometry} {home : Nat → β} {m : Machine β}
    {pending : List (Nat × β)} (inv : InMemory g home m pending) (phase : Phase) :
    InMemory g home (m.goto phase) pending :=
  ⟨inv.erased, inv.fits, inv.outside, inv.keys, inv.cached⟩

theorem Installing.goto {g : Geometry} {home : Nat → β} {m : Machine β} {tail : Nat}
    (inv : Installing g home m tail) (phase : Phase) : Installing g home (m.goto phase) tail :=
  ⟨inv.inside, inv.count, inv.named, inv.copies, inv.settled⟩

theorem Installed.goto {g : Geometry} {home : Nat → β} {m : Machine β}
    (inv : Installed g home m) (phase : Phase) : Installed g home (m.goto phase) :=
  ⟨inv.cleared, inv.settled⟩

/-- `log_write` of a home block extends the transaction by one write. -/
theorem InMemory.logWrite {g : Geometry} {home : Nat → β} {m : Machine β}
    {pending : List (Nat × β)} (inv : InMemory g home m pending) {blockno : Nat} (value : β)
    (outside : ¬ g.InLog blockno) (room : ¬ g.size ≤ m.lh.n + 1) : InMemory g home
      { m with cache := Function.update m.cache blockno value, lh := m.lh.absorb blockno }
      (pending ++ [(blockno, value)]) := by
  have count : (m.lh.absorb blockno).n ≤ m.lh.n + 1 := by
    simp only [Logheader.absorb]
    split <;> omega
  refine ⟨inv.erased, ?_, ?_, ?_, ?_⟩
  · grind
  · intro i below
    have listed : (m.lh.absorb blockno).block i ∈ (m.lh.absorb blockno).blocks :=
      mem_blocks.mpr ⟨i, below, rfl⟩
    rcases mem_blocks_absorb.mp listed with old | new
    · obtain ⟨j, bound, named⟩ := mem_blocks.mp old
      rw [← named]
      exact inv.outside j bound
    · rwa [new]
  · intro b
    rw [List.map_append, List.mem_append, inv.keys b, mem_blocks_absorb]
    simp
  · intro b home
    rw [applyWrites_concat]
    grind [Function.update_of_ne, cached]

section Step

variable {g : Geometry} {initial : Nat → β} {m m' : Machine β} {h : History β}

theorem Inv.writeLog_step (inv : Inv g initial (m, h)) {tail : Nat}
    (standing : m.phase = .writeLog tail) (taken : blockWrite g m = some m') :
    Inv g initial (m', h.step m .blockWrite) := by
  obtain ⟨recoverable, memory, inside, copied⟩ : Recoverable g (home initial h) m.disk ∧
      InMemory g (home initial h) m h.pending ∧ tail < m.lh.n ∧ Copied g m tail :=
    ⟨inv.recoverable, by simpa only [PhaseInv, standing] using inv.phase⟩
  have next := copied.next memory inside
  simp only [blockWrite, standing, bwrite_lh, Option.some.injEq] at taken
  simp only [History.step, standing, reduceCtorEq, ↓reduceIte]
  subst taken
  refine ⟨recoverable.copy memory inside _, ?_⟩
  by_cases more : tail + 1 < m.lh.n
  · simp only [more, ↓reduceIte]
    exact ⟨(memory.copy inside _).goto _, more, next⟩
  · have last : m.lh.n = tail + 1 := by omega
    simp only [more, ↓reduceIte]
    refine ⟨(memory.copy inside _).goto _, by change 0 < m.lh.n; omega, ?_⟩
    change Copied g _ m.lh.n
    rw [last]
    exact next

/-- The header write moves the running transaction into the committed ones. -/
theorem Inv.writeHead_step (inv : Inv g initial (m, h)) (standing : m.phase = .writeHead)
    (taken : blockWrite g m = some m') : Inv g initial (m', h.step m .blockWrite) := by
  obtain ⟨recoverable, memory, nonempty, copied⟩ : Recoverable g (home initial h) m.disk ∧
      InMemory g (home initial h) m h.pending ∧ 0 < m.lh.n ∧ Copied g m m.lh.n :=
    ⟨inv.recoverable, by simpa only [PhaseInv, standing] using inv.phase⟩
  simp only [blockWrite, standing, Option.some.injEq] at taken
  simp only [History.step, standing, ↓reduceIte]
  subst taken
  have grown : home initial { h with pending := [], committed := h.committed ++ [h.pending] } =
      applyWrites (home initial h) h.pending := applyBatches_concat _ _ _
  constructor
  · rw [grown]
    exact recoverable.commit memory copied
  · rw [grown]
    exact ⟨rfl, (Installing.commit recoverable memory copied nonempty).goto _⟩

/-- `install_trans` iterates alike in commit and in recovery. -/
theorem Inv.install_step {tail : Nat} (again : Nat → Phase) (done : Phase)
    (inv : Inv g initial (m, h)) (pending : h.pending = [])
    (installing : Installing g (home initial h) m tail)
    (againInv : ∀ m tail, PhaseInv g (home initial h) m h.pending (again tail) =
      (h.pending = [] ∧ Installing g (home initial h) m tail))
    (doneInv : ∀ m, PhaseInv g (home initial h) m h.pending done =
      (h.pending = [] ∧ Installed g (home initial h) m)) :
    Inv g initial ((if tail + 1 < m.lh.n then (m.install g tail).goto (again (tail + 1))
      else (m.install g tail).clear.goto done), h) := by
  have installed := inv.recoverable.install installing
  by_cases more : tail + 1 < m.lh.n
  · rw [if_pos more]
    refine ⟨installed, ?_⟩
    change PhaseInv g (home initial h) _ h.pending (again (tail + 1))
    rw [againInv]
    exact ⟨pending, (installing.next inv.recoverable more).goto _⟩
  · rw [if_neg more]
    refine ⟨installed, ?_⟩
    change PhaseInv g (home initial h) _ h.pending done
    rw [doneInv]
    exact ⟨pending, (installing.finish more).goto _⟩

theorem Inv.of_installed (pending : h.pending = []) (installed : Installed g (home initial h) m) :
    Inv g initial (m.writeHead.goto .running, h) := by
  refine ⟨installed.erase, ?_⟩
  rw [pending]
  exact installed.running.goto _

/-- One block write keeps the invariant, in whichever loop it happens. -/
theorem Inv.blockWrite_step (inv : Inv g initial (m, h)) (taken : blockWrite g m = some m') :
    Inv g initial (m', h.step m .blockWrite) := by
  have phase := inv.phase
  cases standing : m.phase with
  | running | down => simp [blockWrite, standing] at taken
  | writeLog tail => exact inv.writeLog_step standing taken
  | writeHead => exact inv.writeHead_step standing taken
  | installTrans tail | recoverInstall tail =>
    simp only [standing, PhaseInv] at phase
    simp only [blockWrite, standing, Option.some.injEq] at taken
    simp only [History.step, standing, reduceCtorEq, ↓reduceIte]
    rw [← taken]
    exact inv.install_step _ _ phase.1 phase.2 (fun _ _ => rfl) (fun _ => rfl)
  | eraseHead | recoverHead =>
    grind [PhaseInv, blockWrite, Option.some.injEq, History.step, of_installed]

/-- A booting machine reads back whatever transaction the header still lists. -/
theorem Inv.boot_step (inv : Inv g initial (m, h)) (standing : m.phase = .down)
    (taken : step g m .boot = some m') : Inv g initial (m', h) := by
  have pending : h.pending = [] := by simpa only [PhaseInv, standing] using inv.phase
  have recoverable := inv.recoverable
  simp only [step, standing, ↓reduceIte, Option.some.injEq] at taken
  rw [← taken]
  have named : ∀ i < m.disk.header.n, m.readHead.lh.block i = m.disk.header.block i := by
    intro i below
    simp only [Machine.readHead, below, ↓reduceIte]
  by_cases listed : 0 < m.disk.header.n
  · rw [if_pos (show 0 < m.readHead.lh.n from listed)]
    refine ⟨recoverable, pending, listed, rfl, fun i below => (named i below).symm, ?_, ?_⟩
    · intro i below
      change m.disk.data _ = home initial h (m.readHead.lh.block i)
      rw [named i below]
      exact recoverable.copies i below
    · intro b outside waiting
      have settled : m.disk.data b = home initial h b := by
        apply recoverable.rest b outside
        rw [mem_blocks]
        rintro ⟨i, below, same⟩
        exact waiting i (Nat.zero_le i) below ((named i below).trans same)
      exact ⟨settled, settled⟩
  · rw [if_neg (show ¬ 0 < m.readHead.lh.n from listed)]
    have erased : m.disk.header.n = 0 := by omega
    refine ⟨recoverable, pending, rfl, fun b outside => ?_⟩
    exact ⟨recoverable.erased_data erased b outside, recoverable.erased_data erased b outside⟩

theorem Inv.step {state next : Machine β × History β} {event : Event β}
    (homeBlock : HomeBlock g state.1 event) (inv : Inv g initial state)
    (taken : track g state event = some next) : Inv g initial next := by
  obtain ⟨m, h⟩ := state
  obtain ⟨m', moved, rfl⟩ := Option.map_eq_some_iff.mp taken
  cases event with
  | blockWrite => exact inv.blockWrite_step moved
  | crash =>
    cases moved
    exact ⟨inv.recoverable, rfl⟩
  | boot =>
    have standing : m.phase = .down := by
      simp only [Log.step, Option.ite_none_right_eq_some] at moved
      exact moved.1
    exact inv.boot_step standing moved
  | logWrite blockno value =>
    simp only [Log.step, Option.ite_none_right_eq_some, Option.some.injEq, not_or] at moved
    obtain ⟨⟨standing, -, room⟩, rfl⟩ := moved
    have memory : InMemory g (home initial h) m h.pending := by
      simpa only [PhaseInv, standing] using inv.phase
    refine ⟨inv.recoverable, ?_⟩
    simp only [standing, History.step, PhaseInv]
    exact (memory.logWrite value homeBlock room).goto .running
  | commit =>
    simp only [Log.step, Option.ite_none_right_eq_some, Option.some.injEq] at moved
    obtain ⟨standing, rfl⟩ := moved
    have memory : InMemory g (home initial h) m h.pending := by
      simpa only [PhaseInv, standing] using inv.phase
    by_cases nonempty : 0 < m.lh.n
    · simp only [History.step, nonempty, ↓reduceIte]
      exact ⟨inv.recoverable, memory.goto _, nonempty, fun i below => by omega⟩
    · simp only [History.step, nonempty, ↓reduceIte]
      exact inv

end Step

/-- A running machine with an empty log, before its first `log_write`. -/
structure Fresh (m : Machine β) : Prop where
  running : m.phase = .running
  cleared : m.lh.n = 0
  erased : m.disk.header.n = 0
  clean : m.cache = m.disk.data

def History.empty : History β := ⟨[], [], []⟩

theorem Fresh.inv {m : Machine β} (fresh : Fresh m) (g : Geometry) :
    Inv g m.disk.data (m, History.empty) := by
  refine ⟨Recoverable.of_erased fresh.erased fun _ _ => rfl, ?_⟩
  simp only [PhaseInv, fresh.running]
  have empty := fresh.cleared
  refine ⟨fresh.erased, fun i below => by omega, fun i below => by omega, fun b => ?_,
    fun b _ => congrFun fresh.clean b⟩
  simp [History.empty, mem_blocks, empty]

def Event.isCrash : Event β → Bool
  | .crash => true
  | _ => false

def Event.isCommit : Event β → Bool
  | .commit => true
  | _ => false

/-- All commits are made before the first crash. -/
def SingleLife (events : List (Event β)) : Prop :=
  ∃ work tail, events = work ++ tail ∧ (∀ e ∈ work, e.isCrash = false) ∧
    ∀ e ∈ tail, e.isCommit = false

/-- Before any crash the transactions issued are the committed ones, and the one
that `commit` is copying to the log. -/
def Undisturbed (state : Machine β × History β) : Prop :=
  match state.1.phase with
  | .running | .installTrans _ | .eraseHead => state.2.issued = state.2.committed
  | .writeLog _ | .writeHead => state.2.issued = state.2.committed ++ [state.2.pending]
  | .down | .recoverInstall _ | .recoverHead => False

/-- The committed transactions are the first ones issued. -/
def InOrder (state : Machine β × History β) : Prop :=
  match state.1.phase with
  | .writeLog _ | .writeHead => state.2.issued = state.2.committed ++ [state.2.pending]
  | _ => state.2.committed <+: state.2.issued

theorem Undisturbed.inOrder {state : Machine β × History β} (ordered : Undisturbed state) :
    InOrder state := by
  unfold Undisturbed at ordered
  unfold InOrder
  grind

/-- The phase a block write leads to, and whether it is the commit point. -/
theorem blockWrite_phase {g : Geometry} {m m' : Machine β} (taken : blockWrite g m = some m') :
    (∃ tail, m.phase = .writeLog tail ∧ (m'.phase = .writeLog (tail + 1) ∨ m'.phase = .writeHead)) ∨
    (m.phase = .writeHead ∧ m'.phase = .installTrans 0) ∨ (∃ tail, m.phase = .installTrans tail ∧
      (m'.phase = .installTrans (tail + 1) ∨ m'.phase = .eraseHead)) ∨
    (∃ tail, m.phase = .recoverInstall tail ∧
      (m'.phase = .recoverInstall (tail + 1) ∨ m'.phase = .recoverHead)) ∨
    (m.phase = .eraseHead ∧ m'.phase = .running) ∨
    (m.phase = .recoverHead ∧ m'.phase = .running) := by
  unfold blockWrite at taken
  cases standing : m.phase <;>
    simp only [standing, Option.some.injEq, reduceCtorEq] at taken <;> subst taken
  case writeLog tail =>
    dsimp only [Machine.goto]
    split <;> simp
  case writeHead => exact Or.inr (Or.inl ⟨rfl, rfl⟩)
  case installTrans tail =>
    split <;> simp [Machine.goto]
  case eraseHead => simp [Machine.goto]
  case recoverInstall tail =>
    split <;> simp [Machine.goto]
  case recoverHead => simp [Machine.goto]

theorem Undisturbed.step {g : Geometry} {state next : Machine β × History β} {event : Event β}
    (noCrash : event.isCrash = false) (ordered : Undisturbed state)
    (taken : track g state event = some next) : Undisturbed next := by
  obtain ⟨m, h⟩ := state
  obtain ⟨m', moved, rfl⟩ := Option.map_eq_some_iff.mp taken
  dsimp only [Undisturbed] at ordered moved ⊢
  cases event with
  | crash => cases noCrash
  | boot =>
    simp only [Log.step, Option.ite_none_right_eq_some] at moved
    simp only [moved.1] at ordered
  | logWrite blockno value =>
    simp only [Log.step, Option.ite_none_right_eq_some, Option.some.injEq] at moved
    obtain ⟨⟨standing, -⟩, rfl⟩ := moved
    simp only [standing] at ordered ⊢
    exact ordered
  | commit =>
    simp only [Log.step, Option.ite_none_right_eq_some, Option.some.injEq] at moved
    obtain ⟨standing, rfl⟩ := moved
    simp only [standing] at ordered
    by_cases nonempty : 0 < m.lh.n
    · simp only [nonempty, ↓reduceIte, Machine.goto, History.step, ordered]
    · grind [History.step]
  | blockWrite =>
    rcases blockWrite_phase moved with ⟨tail, before, after | after⟩ | ⟨before, after⟩ |
      ⟨tail, before, after | after⟩ | ⟨tail, before, after | after⟩ | ⟨before, after⟩ |
      ⟨before, after⟩ <;>
    simp only [before] at ordered <;>
    simp only [after, History.step, before, reduceCtorEq, ↓reduceIte] <;>
    exact ordered

theorem InOrder.step {g : Geometry} {state next : Machine β × History β} {event : Event β}
    (noCommit : event.isCommit = false) (ordered : InOrder state)
    (taken : track g state event = some next) : InOrder next := by
  obtain ⟨m, h⟩ := state
  obtain ⟨m', moved, rfl⟩ := Option.map_eq_some_iff.mp taken
  dsimp only [InOrder] at ordered moved ⊢
  cases event with
  | commit => cases noCommit
  | crash =>
    cases moved
    cases standing : m.phase <;> simp only [standing] at ordered
    all_goals first
      | exact ordered
      | exact ordered ▸ List.prefix_append _ _
  | boot =>
    simp only [Log.step, Option.ite_none_right_eq_some, Option.some.injEq] at moved
    obtain ⟨standing, rfl⟩ := moved
    simp only [standing] at ordered
    by_cases listed : 0 < m.readHead.lh.n
    · simp only [listed, ↓reduceIte, Machine.goto]
      exact ordered
    · simp only [listed, ↓reduceIte, Machine.goto]
      exact ordered
  | logWrite blockno value =>
    simp only [Log.step, Option.ite_none_right_eq_some, Option.some.injEq] at moved
    obtain ⟨⟨standing, -⟩, rfl⟩ := moved
    simp only [standing] at ordered ⊢
    exact ordered
  | blockWrite =>
    rcases blockWrite_phase moved with ⟨tail, before, after | after⟩ | ⟨before, after⟩ |
      ⟨tail, before, after | after⟩ | ⟨tail, before, after | after⟩ | ⟨before, after⟩ |
      ⟨before, after⟩ <;>
    simp only [before] at ordered <;>
    simp only [after, History.step, before, reduceCtorEq, ↓reduceIte]
    all_goals first
      | exact ordered
      | exact ordered ▸ List.prefix_rfl

theorem run_inOrder {g : Geometry} {state final : Machine β × History β}
    {events : List (Event β)} (single : SingleLife events) (start : Undisturbed state)
    (reached : run (track g) state events = some final) : InOrder final := by
  obtain ⟨work, tail, rfl, calm, quiet⟩ := single
  rw [run_append, Option.bind_eq_some_iff] at reached
  obtain ⟨middle, first, second⟩ := reached
  have before : Undisturbed middle :=
    run_keeps (fun _ event _ noCrash ordered taken => Undisturbed.step noCrash ordered taken)
      calm first start
  exact run_keeps (fun _ event _ noCommit ordered taken => InOrder.step noCommit ordered taken)
    quiet second before.inOrder

/-- Crash atomicity. Take any run of `log_write`s to home blocks, commits, crashes
and reboots from an empty log, in which recovery is about to make its last block
write. That write ends it with an empty header and with the home blocks, on disk
and as read back, exactly those of the transactions whose header write reached
the disk; when no transaction was issued after a crash these are the first ones. -/
theorem crash_atomicity (g : Geometry) (m₀ m : Machine β) (h : History β)
    (events : List (Event β)) (fresh : Fresh m₀)
    (homeBlocks : Meets (track g) (fun state event => HomeBlock g state.1 event)
      (m₀, History.empty) events) (reached : run (track g) (m₀, History.empty) events = some (m, h))
    (last : m.phase = .recoverHead) :
    ∃ m', step g m .blockWrite = some m' ∧ m'.phase = .running ∧ m'.disk.header.n = 0 ∧
      (∀ b, ¬ g.InLog b → m'.disk.data b = applyBatches m₀.disk.data h.committed b ∧
        m'.cache b = applyBatches m₀.disk.data h.committed b) ∧
      (SingleLife events → h.committed = h.issued.take h.committed.length) := by
  have inv : Inv g m₀.disk.data (m, h) :=
    run_preserves (fun _ _ _ ok inv taken => inv.step ok taken) homeBlocks reached (fresh.inv g)
  have installed : Installed g (home m₀.disk.data h) m := by
    have phase := inv.phase
    simp only [PhaseInv, last] at phase
    exact phase.2
  refine ⟨m.writeHead.goto .running, by simp only [step, blockWrite, last], rfl,
    installed.cleared, fun b outside => (installed.settled b outside).symm, fun single => ?_⟩
  have start : Undisturbed (m₀, (History.empty : History β)) := by
    simp only [Undisturbed, fresh.running, History.empty]
  have ordered := run_inOrder single start reached
  simp only [InOrder, last] at ordered
  exact List.prefix_iff_eq_take.mp ordered

/-- An empty log of mkfs's geometry over a zeroed disk. -/
def zeroed : Machine Nat where
  disk := ⟨⟨0, fun _ => 0⟩, fun _ => 0⟩
  cache := fun _ => 0
  lh := ⟨0, fun _ => 0⟩
  phase := .running

/-- A two-block transaction, cut off after its header write, and a recovery cut off
after its first install: the second recovery delivers both blocks. -/
theorem crash_atomicity_twice : ∃ m h m', run (track ⟨2, 30⟩) (zeroed, History.empty)
        [.logWrite 50 7, .logWrite 51 8, .commit, .blockWrite, .blockWrite, .blockWrite, .crash,
          .boot, .blockWrite, .crash, .boot, .blockWrite, .blockWrite] = some (m, h) ∧
      step ⟨2, 30⟩ m .blockWrite = some m' ∧ m'.disk.data 50 = 7 ∧ m'.disk.data 51 = 8 := by
  obtain ⟨m', taken, -, -, contents, -⟩ := crash_atomicity ⟨2, 30⟩ zeroed _ _
    [.logWrite 50 7, .logWrite 51 8, .commit, .blockWrite, .blockWrite, .blockWrite, .crash,
      .boot, .blockWrite, .crash, .boot, .blockWrite, .blockWrite]
    ⟨rfl, rfl, rfl, rfl⟩
    (Meets.of_forall (by intro state; simp [HomeBlock, Geometry.InLog]) _) rfl rfl
  refine ⟨_, _, m', rfl, taken, ?_, ?_⟩
  · rw [(contents 50 (by simp [Geometry.InLog])).1]
    rfl
  · rw [(contents 51 (by simp [Geometry.InLog])).1]
    rfl

end Xv6.Log
