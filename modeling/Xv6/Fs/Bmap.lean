import Xv6.Fs.Blocks

/- bmap: where a block of an inode is, and how the inode gets one more. While an
inode is written to, its in-memory copy is ahead of the disk inode, so everything here is
about the table of disk inodes with that copy in its place. -/
namespace Xv6.Fs

open Exec hiding panic
open Ownership

variable {s s' : State} {i : Fin NINODE}

/-- The panics that a call may run into when the disk is full or a name is taken. Those left
out would be a fault of the bookkeeping, or mean that the inode cache is full. -/
def expected : List String :=
  ["balloc: out of blocks", "ialloc: no inodes", "dirlookup not DIR", "dirlink", "create dots",
    "create: dirlink", "unlink: nlink < 1", "unlink: writei", "filedup", "fileclose", "fileread",
    "filewrite", "short filewrite", "init exiting"]

def Lenient (allowed : Stops) : Prop := ∀ message ∈ expected, allowed message

/-- The disk inodes, with the copy in slot `i` for its own. -/
def tableOf (s : State) (i : Fin NINODE) : Nat → Dinode :=
  Function.update s.dinodes (s.icache i).inum (s.icache i).din

/-- Slot `i` holds an inode in use, with its first `count` blocks. -/
structure Flight (s : State) (i : Fin NINODE) (count : Nat) : Prop where
  owned : Owned s.blocks (tableOf s i) s.bitmap
  shaped : Shaped s.blocks (s.icache i).din count
  allocated : (s.icache i).din.type ≠ .free

/-- The same with other calls of log_write. -/
def State.relog (s : State) (logged : List Nat) : State := { s with logged := logged }

theorem Flight.relog {count : Nat} (flight : Flight s i count) (logged : List Nat) :
    Flight (s.relog logged) i count :=
  ⟨flight.owned, flight.shaped, flight.allocated⟩

/-- Nothing changed but the blocks, the bitmap and the addresses of the inode in slot `i`. -/
structure SameButBlocks (s s' : State) (i : Fin NINODE) : Prop where
  dinodes : s'.dinodes = s.dinodes
  others : ∀ j, j ≠ i → s'.icache j = s.icache j
  slot : s'.icache i = { s.icache i with
    din := { (s.icache i).din with addrs := (s'.icache i).din.addrs } }
  namecache : s'.namecache = s.namecache
  ftable : s'.ftable = s.ftable
  procs : s'.procs = s.procs
  devsw : s'.devsw = s.devsw
  pipes : s'.pipes = s.pipes

/-- No inode lost a block, and none of the data changed. -/
structure Kept (s s' : State) (i : Fin NINODE) : Prop where
  same : SameButBlocks s s' i
  addr : ∀ key, owner s.blocks (tableOf s i) key ≠ 0 →
    owner s'.blocks (tableOf s' i) key = owner s.blocks (tableOf s i) key
  foreign : ∀ j n, j ≠ (s.icache i).inum →
    owner s'.blocks (tableOf s' i) (j, n) = owner s.blocks (tableOf s i) (j, n)
  data : ∀ j n, n < MAXFILE → owner s.blocks (tableOf s i) (j, n) ≠ 0 →
    s'.blocks (owner s.blocks (tableOf s i) (j, n)) = s.blocks (owner s.blocks (tableOf s i) (j, n))

theorem SameButBlocks.refl (s : State) (i : Fin NINODE) : SameButBlocks s s i :=
  ⟨rfl, fun _ _ => rfl, rfl, rfl, rfl, rfl, rfl, rfl⟩

theorem SameButBlocks.relog (same : SameButBlocks s s' i) (logged : List Nat) :
    SameButBlocks s (s'.relog logged) i :=
  ⟨same.dinodes, same.others, same.slot, same.namecache, same.ftable, same.procs, same.devsw,
    same.pipes⟩

theorem SameButBlocks.inum (same : SameButBlocks s s' i) :
    (s'.icache i).inum = (s.icache i).inum := by
  rw [same.slot]

theorem SameButBlocks.trans {s'' : State} (first : SameButBlocks s s' i)
    (second : SameButBlocks s' s'' i) : SameButBlocks s s'' i where
  dinodes := second.dinodes.trans first.dinodes
  others := fun j apart => (second.others j apart).trans (first.others j apart)
  slot := by rw [second.slot, first.slot]
  namecache := second.namecache.trans first.namecache
  ftable := second.ftable.trans first.ftable
  procs := second.procs.trans first.procs
  devsw := second.devsw.trans first.devsw
  pipes := second.pipes.trans first.pipes

theorem Kept.refl (s : State) (i : Fin NINODE) : Kept s s i :=
  ⟨SameButBlocks.refl s i, fun _ _ => rfl, fun _ _ _ => rfl, fun _ _ _ _ => rfl⟩

theorem Kept.trans {s'' : State} (first : Kept s s' i) (second : Kept s' s'' i) : Kept s s'' i where
  same := first.same.trans second.same
  addr := fun key some => by
    have kept := first.addr key some
    rw [second.addr key (by rw [kept]; exact some), kept]
  foreign := fun j n apart => by
    rw [second.foreign j n (by rw [first.same.inum]; exact apart), first.foreign j n apart]
  data := fun j n inside some => by
    have kept := first.addr (j, n) some
    have later := second.data j n inside (by rw [kept]; exact some)
    grind [data]

section Allocation

variable {allowed : Stops}

/-- The state after the free block `b` was marked and zeroed. -/
def State.claimBlock (s : State) (b : Nat) : State :=
  { s with
    bitmap := Function.update s.bitmap b true
    blocks := Function.update s.blocks b fun _ => 0
    logged := b :: bblock b :: s.logged }

theorem balloc_spec (full : allowed "balloc: out of blocks") :
    Spec allowed balloc s fun b s' => b < FSSIZE ∧ s.bitmap b = false ∧ s' = s.claimBlock b := by
  refine Spec.bind_get ?_
  split
  · rename_i b found
    refine Spec.bind_modify (Spec.pure ⟨?_, ?_, rfl⟩)
    · exact List.mem_range.mp (List.mem_of_find?_eq_some found)
    · simpa using List.find?_some found
  · exact Spec.panic full

/-- The state with another copy of the disk inode in slot `i`. -/
def State.putDin (s : State) (i : Fin NINODE) (din : Dinode) : State :=
  { s with icache := Function.update s.icache i { s.icache i with din := din } }

theorem setDin_eq (i : Fin NINODE) (change : Dinode → Dinode) :
    setDin i change = Exec.modify fun s => s.putDin i (change (s.icache i).din) := rfl

theorem putDin_self (s : State) (i : Fin NINODE) (din : Dinode) :
    (s.putDin i din).icache i = { s.icache i with din := din } :=
  Function.update_self _ _ _

theorem putDin_of_ne (s : State) {j : Fin NINODE} (din : Dinode) (apart : j ≠ i) :
    (s.putDin i din).icache j = s.icache j :=
  Function.update_of_ne apart _ _

theorem tableOf_self (s : State) (i : Fin NINODE) :
    tableOf s i (s.icache i).inum = (s.icache i).din :=
  Function.update_self _ _ _

theorem tableOf_of_ne (s : State) {j : Nat} (apart : j ≠ (s.icache i).inum) :
    tableOf s i j = s.dinodes j :=
  Function.update_of_ne apart _ _

theorem tableOf_putDin (s : State) (i : Fin NINODE) (din : Dinode) :
    tableOf (s.putDin i din) i = Function.update (tableOf s i) (s.icache i).inum din := by
  simp only [tableOf, putDin_self, Function.update_idem]
  rfl

theorem tableOf_claimBlock (s : State) (i : Fin NINODE) (b : Nat) :
    tableOf (s.claimBlock b) i = tableOf s i := rfl

theorem SameButBlocks.claimBlock (s : State) (i : Fin NINODE) (b : Nat) :
    SameButBlocks s (s.claimBlock b) i :=
  ⟨rfl, fun _ _ => rfl, rfl, rfl, rfl, rfl, rfl, rfl⟩

theorem SameButBlocks.setAddr (s : State) (i : Fin NINODE) (n addr : Nat) :
    SameButBlocks s (s.putDin i ((s.icache i).din.setAddr n addr)) i := by
  refine ⟨rfl, fun j apart => putDin_of_ne s _ apart, ?_, rfl, rfl, rfl, rfl, rfl⟩
  rw [putDin_self]
  rfl

theorem SameButBlocks.setBlock (s : State) (i : Fin NINODE) (b : Nat) (value : Block)
    (logged : List Nat) :
    SameButBlocks s { s with blocks := Function.update s.blocks b value, logged := logged } i :=
  ⟨rfl, fun _ _ => rfl, rfl, rfl, rfl, rfl, rfl, rfl⟩

theorem SameButBlocks.setBitmap (s : State) (i : Fin NINODE) (bitmap : Nat → Bool)
    (logged : List Nat) :
    SameButBlocks s { s with bitmap := bitmap, logged := logged } i :=
  ⟨rfl, fun _ _ => rfl, rfl, rfl, rfl, rfl, rfl, rfl⟩

/-- Block `n` of the inode in slot `i`, which was missing, is `b` now; nobody's data changed. -/
structure Claims (s s' : State) (i : Fin NINODE) (n b : Nat) : Prop where
  same : SameButBlocks s s' i
  owned : Owned s'.blocks (tableOf s' i) s'.bitmap
  none : owner s.blocks (tableOf s i) ((s.icache i).inum, n) = 0
  some : b ≠ 0
  claimed : owner s'.blocks (tableOf s' i) =
    Function.update (owner s.blocks (tableOf s i)) ((s.icache i).inum, n) b
  data : ∀ j m, m < MAXFILE → owner s.blocks (tableOf s i) (j, m) ≠ 0 →
    s'.blocks (owner s.blocks (tableOf s i) (j, m)) =
      s.blocks (owner s.blocks (tableOf s i) (j, m))
  zero : s'.blocks b = fun _ => 0

variable {s'' : State} {b n addr : Nat}

theorem Claims.relog (claims : Claims s s' i n b) (logged : List Nat) :
    Claims s (s'.relog logged) i n b :=
  ⟨claims.same.relog logged, claims.owned, claims.none, claims.some, claims.claimed, claims.data,
    claims.zero⟩

theorem Claims.kept (claims : Claims s s' i n b) : Kept s s' i where
  same := claims.same
  addr := fun key some => by
    rw [claims.claimed, Function.update_of_ne]
    grind [none]
  foreign := fun j m apart => by
    rw [claims.claimed, Function.update_of_ne]
    intro equal
    exact apart (Prod.mk.inj equal).1
  data := claims.data

/-- The other blocks of the inode are where they were. -/
theorem Claims.others (claims : Claims s s' i n b) {m : Nat} (apart : m ≠ n) :
    owner s'.blocks (tableOf s' i) ((s.icache i).inum, m) =
      owner s.blocks (tableOf s i) ((s.icache i).inum, m) := by
  rw [claims.claimed, Function.update_of_ne]
  intro equal
  exact apart (Prod.mk.inj equal).2

/-- What `bmap` does: block `n` of the inode is at `addr` now, and was there before if the
inode had it. -/
structure Mapped (s s' : State) (i : Fin NINODE) (n addr : Nat) : Prop where
  owned : Owned s'.blocks (tableOf s' i) s'.bitmap
  kept : Kept s s' i
  here : owner s'.blocks (tableOf s' i) ((s.icache i).inum, n) = addr
  some : addr ≠ 0
  others : ∀ m, m < MAXFILE → m ≠ n → owner s'.blocks (tableOf s' i) ((s.icache i).inum, m) =
    owner s.blocks (tableOf s i) ((s.icache i).inum, m)
  indirect : (s'.icache i).din.addrs NDIRECT ≠ 0 ↔ (s.icache i).din.addrs NDIRECT ≠ 0 ∨ NDIRECT ≤ n
  idle : owner s.blocks (tableOf s i) ((s.icache i).inum, n) ≠ 0 → s' = s
  fresh : owner s.blocks (tableOf s i) ((s.icache i).inum, n) = 0 → s'.blocks addr = fun _ => 0

theorem Claims.mapped (claims : Claims s s' i n b) (indirect : (s'.icache i).din.addrs NDIRECT ≠ 0 ↔
      (s.icache i).din.addrs NDIRECT ≠ 0 ∨ NDIRECT ≤ n) : Mapped s s' i n b where
  owned := claims.owned
  kept := claims.kept
  here := by rw [claims.claimed, Function.update_self]
  some := claims.some
  others := fun _ _ apart => claims.others apart
  indirect := indirect
  idle := fun some => (some claims.none).elim
  fresh := fun _ => claims.zero

/-- The block the inode had already. -/
theorem Mapped.found (owned : Owned s.blocks (tableOf s i) s.bitmap)
    (here : owner s.blocks (tableOf s i) ((s.icache i).inum, n) = addr) (some : addr ≠ 0)
    (indirect : NDIRECT ≤ n → (s.icache i).din.addrs NDIRECT ≠ 0) : Mapped s s i n addr where
  owned := owned
  kept := Kept.refl s i
  here := here
  some := some
  others := fun _ _ _ => rfl
  indirect := ⟨Or.inl, fun either => either.elim id indirect⟩
  idle := fun _ => rfl
  fresh := fun none => (some (here.symm.trans none)).elim

/-- First the indirect block, then an entry of it. -/
theorem Claims.mapped_entry (first : Claims s s' i MAXFILE b) (second : Mapped s' s'' i n addr)
    (none : owner s.blocks (tableOf s i) ((s.icache i).inum, n) = 0) (lower : NDIRECT ≤ n)
    (upper : n < MAXFILE) : Mapped s s'' i n addr := by
  have inum := first.same.inum
  refine ⟨second.owned, first.kept.trans second.kept, ?_, second.some, ?_, ?_, ?_, ?_⟩
  · rw [← inum]
    exact second.here
  · intro m inside apart
    have later := second.others m inside apart
    rw [inum] at later
    rw [later, first.others (by omega)]
  · rw [second.indirect]
    simp only [lower, or_true]
  · intro some
    exact (some none).elim
  · intro _
    refine second.fresh ?_
    rw [inum, first.others (by omega)]
    exact none

/-- Zeroing a free block leaves the data of the owned ones alone. -/
theorem Owned.data_claimBlock (owned : Owned s.blocks (tableOf s i) s.bitmap) (inside : b < FSSIZE)
    (free : s.bitmap b = false) {key : Nat × Nat} (some : owner s.blocks (tableOf s i) key ≠ 0) :
    (s.claimBlock b).blocks (owner s.blocks (tableOf s i) key) =
      s.blocks (owner s.blocks (tableOf s i) key) := by
  refine Function.update_of_ne ?_ _ _
  intro same
  have zero := owned.unowned inside free key same
  exact some (same.trans zero)

theorem Owned.owner_claimBlock (owned : Owned s.blocks (tableOf s i) s.bitmap) (inside : b < FSSIZE)
    (free : s.bitmap b = false) :
    owner (s.claimBlock b).blocks (tableOf s i) = owner s.blocks (tableOf s i) :=
  owned.owner_zeroed inside free _

theorem Owned.nonzero (owned : Owned s.blocks (tableOf s i) s.bitmap) (inside : b < FSSIZE)
    (free : s.bitmap b = false) : b ≠ 0 := by
  have lower := owned.lower_of_free inside free
  have positive : 0 < nmeta := by decide
  omega

/-- The bitmap is exact again when a free block has become somebody's. -/
theorem Owned.claimed (owned : Owned s.blocks (tableOf s i) s.bitmap) (inside : b < FSSIZE)
    (free : s.bitmap b = false) {key : Nat × Nat} (none : owner s.blocks (tableOf s i) key = 0)
    {blocks : Nat → Block} {table : Nat → Dinode}
    (claimed : owner blocks table = Function.update (owner s.blocks (tableOf s i)) key b) :
    Owned blocks table (s.claimBlock b).bitmap := by
  have exact := owned.claim (by decide) inside free none
  rw [← claimed] at exact
  exact exact

section Inode

variable (owned : Owned s.blocks (tableOf s i) s.bitmap)
  (allocated : (tableOf s i (s.icache i).inum).type ≠ .free)
  (inside : b < FSSIZE) (free : s.bitmap b = false)
include owned allocated inside free

theorem claims_direct (direct : n < NDIRECT) (none : (s.icache i).din.addrs n = 0) :
    Claims s ((s.claimBlock b).putDin i ((s.icache i).din.setAddr n b)) i n b := by
  have empty : owner s.blocks (tableOf s i) ((s.icache i).inum, n) = 0 := by
    rw [owner_of_allocated allocated, blockAddr_direct direct, tableOf_self, none]
  have claimed : owner (s.claimBlock b).blocks
      (tableOf ((s.claimBlock b).putDin i ((s.icache i).din.setAddr n b)) i) =
      Function.update (owner s.blocks (tableOf s i)) ((s.icache i).inum, n) b := by
    rw [tableOf_putDin, tableOf_claimBlock, ← owned.owner_claimBlock inside free,
      ← owner_setAddr_direct allocated direct, tableOf_self]
    rfl
  refine ⟨?_, owned.claimed inside free empty claimed, empty, owned.nonzero inside free,
    claimed, ?_, Function.update_self _ _ _⟩
  · exact (SameButBlocks.claimBlock s i b).trans (SameButBlocks.setAddr (s.claimBlock b) i n b)
  · intro j m _ some
    exact owned.data_claimBlock inside free some

theorem claims_indirect (none : (s.icache i).din.addrs NDIRECT = 0) :
    Claims s ((s.claimBlock b).putDin i ((s.icache i).din.setAddr NDIRECT b)) i MAXFILE b := by
  have empty : owner s.blocks (tableOf s i) ((s.icache i).inum, MAXFILE) = 0 := by
    rw [owner_of_allocated allocated, blockAddr_indirect, tableOf_self, none]
  have zero : (s.claimBlock b).blocks b = fun _ => 0 := Function.update_self _ _ _
  have claimed : owner (s.claimBlock b).blocks
      (tableOf ((s.claimBlock b).putDin i ((s.icache i).din.setAddr NDIRECT b)) i) =
      Function.update (owner s.blocks (tableOf s i)) ((s.icache i).inum, MAXFILE) b := by
    rw [tableOf_putDin, tableOf_claimBlock, ← owned.owner_claimBlock inside free,
      ← owner_setAddr_indirect allocated (by rw [tableOf_self, none]) zero, tableOf_self]
    rfl
  refine ⟨?_, owned.claimed inside free empty claimed, empty, owned.nonzero inside free,
    claimed, ?_, zero⟩
  · exact (SameButBlocks.claimBlock s i b).trans
      (SameButBlocks.setAddr (s.claimBlock b) i NDIRECT b)
  · intro j m _ some
    exact owned.data_claimBlock inside free some

theorem claims_entry (lower : NDIRECT ≤ n) (upper : n < MAXFILE)
    (pointer : (s.icache i).din.addrs NDIRECT = addr) (some : addr ≠ 0)
    (none : get32 (s.blocks addr) (n - NDIRECT) = 0) : Claims s { s.claimBlock b with
      blocks := Function.update (s.claimBlock b).blocks addr
        (set32 ((s.claimBlock b).blocks addr) (n - NDIRECT) b)
      logged := addr :: (s.claimBlock b).logged } i n b := by
  have table : (tableOf s i (s.icache i).inum).addrs NDIRECT = addr := by rw [tableOf_self, pointer]
  have nonzero : (tableOf s i (s.icache i).inum).addrs NDIRECT ≠ 0 := by rw [table]; exact some
  have holder : owner s.blocks (tableOf s i) ((s.icache i).inum, MAXFILE) = addr := by
    rw [owner_of_allocated allocated, blockAddr_indirect, table]
  have empty : owner s.blocks (tableOf s i) ((s.icache i).inum, n) = 0 := by
    rw [owner_of_allocated allocated, blockAddr_entry lower upper nonzero, table, none]
  have zeroed : Owned (s.claimBlock b).blocks (tableOf s i) s.bitmap := by
    rw [Owned, owned.owner_claimBlock inside free]
    exact owned
  have fits : b < 2 ^ 32 := by
    have small : FSSIZE < 2 ^ 32 := by decide
    omega
  have claimed := zeroed.owner_setEntry allocated lower upper nonzero fits
  rw [table, owned.owner_claimBlock inside free] at claimed
  refine ⟨?_, owned.claimed inside free empty claimed, empty, owned.nonzero inside free,
    claimed, ?_, ?_⟩
  · exact (SameButBlocks.claimBlock s i b).trans (SameButBlocks.setBlock (s.claimBlock b) i _ _ _)
  · intro j m inner own
    have apart : owner s.blocks (tableOf s i) (j, m) ≠ addr := by
      rw [← holder]
      refine owned.apart own ?_
      intro equal
      have last := (Prod.mk.inj equal).2
      omega
    have kept := owned.data_claimBlock inside free own
    grind
  · have apart : b ≠ addr := by
      intro same
      have zero := owned.unowned inside free _ (holder.trans same.symm)
      exact some (same.symm.trans zero)
    simp [State.claimBlock, Function.update_of_ne, Function.update_self, apart]

end Inode

end Allocation

section Bmap

variable {allowed : Stops} {n addr : Nat}

theorem bmap_indirect_spec (full : owner s.blocks (tableOf s i) ((s.icache i).inum, n) = 0 →
      allowed "balloc: out of blocks") (owned : Owned s.blocks (tableOf s i) s.bitmap)
    (allocated : (s.icache i).din.type ≠ .free) (lower : NDIRECT ≤ n) (upper : n < MAXFILE)
    (pointer : (s.icache i).din.addrs NDIRECT = addr) (some : addr ≠ 0) :
    Spec allowed (bmap.indirect addr (n - NDIRECT)) s fun new s' => Mapped s s' i n new := by
  have allocated' : (tableOf s i (s.icache i).inum).type ≠ .free := by rwa [tableOf_self]
  have nonzero : (tableOf s i (s.icache i).inum).addrs NDIRECT ≠ 0 := by
    rwa [tableOf_self, pointer]
  have entry : owner s.blocks (tableOf s i) ((s.icache i).inum, n) =
      get32 (s.blocks addr) (n - NDIRECT) := by
    rw [owner_of_allocated allocated', blockAddr_entry lower upper nonzero, tableOf_self, pointer]
  refine Spec.bind_get ?_
  split
  · rename_i none
    refine Spec.bind (balloc_spec (full (entry.trans none))) ?_
    rintro b after ⟨inside, free, rfl⟩
    refine Spec.bind_modify (Spec.pure ?_)
    refine (claims_entry owned allocated' inside free lower upper pointer some none).mapped ?_
    simp only [lower, or_true, iff_true]
    change (s.icache i).din.addrs NDIRECT ≠ 0
    rwa [pointer]
  · grind [Spec.pure, Mapped.found]

/-- `bmap` finds block `n` of the inode, or gives the inode a new one. -/
theorem bmap_spec (full : owner s.blocks (tableOf s i) ((s.icache i).inum, n) = 0 →
      allowed "balloc: out of blocks") (owned : Owned s.blocks (tableOf s i) s.bitmap)
    (allocated : (s.icache i).din.type ≠ .free) (upper : n < MAXFILE) :
    Spec allowed (bmap i n) s fun addr s' => Mapped s s' i n addr := by
  have allocated' : (tableOf s i (s.icache i).inum).type ≠ .free := by rwa [tableOf_self]
  refine Spec.bind_get ?_
  split
  · rename_i direct
    have here : owner s.blocks (tableOf s i) ((s.icache i).inum, n) = (s.icache i).din.addrs n := by
      rw [owner_of_allocated allocated', blockAddr_direct direct, tableOf_self]
    split
    · rename_i none
      refine Spec.bind (balloc_spec (full (here.trans none))) ?_
      rintro b after ⟨inside, free, rfl⟩
      refine Spec.bind_modify (Spec.pure ?_)
      refine (claims_direct owned allocated' inside free direct none).mapped ?_
      rw [putDin_self]
      rw [setAddr_of_ne _ _ (by omega)]
      omega
    · grind [Spec.pure, Mapped.found]
  · rename_i large
    rw [if_pos (show n - NDIRECT < NINDIRECT by simp only [MAXFILE] at upper; omega)]
    split
    · rename_i none
      have missing : owner s.blocks (tableOf s i) ((s.icache i).inum, n) = 0 := by
        rw [owner_of_allocated allocated', tableOf_self, blockAddr, if_neg large, if_pos upper,
          if_pos none]
      refine Spec.bind (balloc_spec (full missing)) ?_
      rintro b after ⟨inside, free, rfl⟩
      refine Spec.bind_modify ?_
      have claims := claims_indirect owned allocated' inside free none
      have pointer : (((s.claimBlock b).putDin i ((s.icache i).din.setAddr NDIRECT b)).icache
          i).din.addrs NDIRECT = b := by
        rw [putDin_self]
        exact setAddr_self _ _ _
      have still : (((s.claimBlock b).putDin i ((s.icache i).din.setAddr NDIRECT b)).icache
          i).din.type ≠ .free := by
        rw [putDin_self]
        exact allocated
      refine Spec.mono (bmap_indirect_spec (fun _ => full missing) claims.owned still (by omega)
        upper pointer claims.some) ?_
      intro addr after mapped
      exact claims.mapped_entry mapped missing (by omega) upper
    · grind [bmap_indirect_spec]

end Bmap

end Xv6.Fs
