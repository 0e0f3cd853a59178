import Xv6.Fs.Inode
import Xv6.Lib.Ownership

/- Which block belongs to which inode. -/
namespace Xv6.Fs

open Ownership

/-- The blocks in front of the data blocks: boot, super, log, inode and bitmap blocks. -/
abbrev nmeta : Nat := 2 + LOGSIZE + (NINODES / IPB + 1) + (FSSIZE / BPB + 1)

/-- The address of block `n` of an inode, 0 if it has none; block MAXFILE is the
indirect block. -/
def blockAddr (blocks : Nat → Block) (din : Dinode) (n : Nat) : Nat :=
  if n < NDIRECT then din.addrs n
  else if n < MAXFILE then
    if din.addrs NDIRECT = 0 then 0 else get32 (blocks (din.addrs NDIRECT)) (n - NDIRECT)
  else if n = MAXFILE then din.addrs NDIRECT
  else 0

/-- The block that a key, an inode number and a block number in it, owns. -/
def owner (blocks : Nat → Block) (table : Nat → Dinode) (key : Nat × Nat) : Nat :=
  if (table key.1).type = .free then 0 else blockAddr blocks (table key.1) key.2

/-- The bitmap is exact, and no block has two owners. -/
abbrev Owned (blocks : Nat → Block) (table : Nat → Dinode) (bitmap : Nat → Bool) : Prop :=
  Exact nmeta FSSIZE (owner blocks table) bitmap

/-- The inode has its first `count` blocks, and no other. -/
structure Shaped (blocks : Nat → Block) (din : Dinode) (count : Nat) : Prop where
  bound : count ≤ MAXFILE
  data : ∀ n, n < MAXFILE → (blockAddr blocks din n ≠ 0 ↔ n < count)
  indirect : din.addrs NDIRECT ≠ 0 ↔ NDIRECT < count

/-- The blocks of an inode with `count` data blocks. -/
def held (count : Nat) : Nat := count + if NDIRECT < count then 1 else 0

theorem held_mono {count more : Nat} (le : count ≤ more) : held count ≤ held more := by
  grind [held]

section Addresses

variable {blocks : Nat → Block} {din : Dinode} {n : Nat} {blocks' : Nat → Block}
  {table : Nat → Dinode}

theorem blockAddr_direct (direct : n < NDIRECT) : blockAddr blocks din n = din.addrs n := by
  rw [blockAddr, if_pos direct]

theorem blockAddr_entry (lower : NDIRECT ≤ n) (upper : n < MAXFILE) (some : din.addrs NDIRECT ≠ 0) :
    blockAddr blocks din n = get32 (blocks (din.addrs NDIRECT)) (n - NDIRECT) := by
  rw [blockAddr, if_neg (by omega), if_pos upper, if_neg some]

theorem blockAddr_indirect : blockAddr blocks din MAXFILE = din.addrs NDIRECT := by
  simp [blockAddr]

theorem blockAddr_beyond (beyond : MAXFILE < n) : blockAddr blocks din n = 0 := by
  have large : ¬ n < NDIRECT := by
    simp only [MAXFILE] at beyond
    omega
  rw [blockAddr, if_neg large, if_neg (by omega), if_neg (by omega)]

/-- Only the indirect block decides where the blocks of an inode are. -/
theorem blockAddr_congr
    (same : din.addrs NDIRECT ≠ 0 → blocks' (din.addrs NDIRECT) = blocks (din.addrs NDIRECT))
    (n : Nat) :
    blockAddr blocks' din n = blockAddr blocks din n := by
  unfold blockAddr
  by_cases none : din.addrs NDIRECT = 0
  · simp only [none, ↓reduceIte]
  · simp only [none, ↓reduceIte, same none]

theorem owner_of_allocated {i : Nat} (allocated : (table i).type ≠ .free)
    (n : Nat) : owner blocks table (i, n) = blockAddr blocks (table i) n := by
  rw [owner, if_neg allocated]

theorem owner_congr (same : ∀ i, (table i).type ≠ .free → (table i).addrs NDIRECT ≠ 0 →
      blocks' ((table i).addrs NDIRECT) = blocks ((table i).addrs NDIRECT)) :
    owner blocks' table = owner blocks table := by
  grind [owner, blockAddr_congr]

end Addresses

section Steps

variable {blocks : Nat → Block} {table : Nat → Dinode} {bitmap : Nat → Bool} {b : Nat}
  {i n addr : Nat}

/-- A free block is nobody's indirect block. -/
theorem Owned.not_indirect (owned : Owned blocks table bitmap) (inside : b < FSSIZE)
    (free : bitmap b = false) (allocated : (table i).type ≠ .free)
    (some : (table i).addrs NDIRECT ≠ 0) : (table i).addrs NDIRECT ≠ b := by
  intro same
  have own : owner blocks table (i, MAXFILE) = b := by
    rw [owner_of_allocated allocated, blockAddr_indirect, same]
  have zero := owned.unowned inside free (i, MAXFILE) own
  exact some (same.trans zero)

/-- Zeroing a free block moves nothing. -/
theorem Owned.owner_zeroed (owned : Owned blocks table bitmap) (inside : b < FSSIZE)
    (free : bitmap b = false) (value : Block) :
    owner (Function.update blocks b value) table = owner blocks table := by
  refine owner_congr fun i allocated some => ?_
  rw [Function.update_of_ne (owned.not_indirect inside free allocated some)]

/-- Two different keys own different blocks. -/
theorem Owned.apart (owned : Owned blocks table bitmap) {key other : Nat × Nat}
    (some : owner blocks table key ≠ 0) (different : key ≠ other) :
    owner blocks table key ≠ owner blocks table other :=
  fun same => different (owned.once key other some same)

/-- The inode with one of its addresses changed. -/
def Dinode.setAddr (din : Dinode) (n addr : Nat) : Dinode :=
  { din with addrs := Function.update din.addrs n addr }

theorem setAddr_self (din : Dinode) (n addr : Nat) : (din.setAddr n addr).addrs n = addr :=
  Function.update_self _ _ _

theorem setAddr_of_ne (din : Dinode) {m : Nat} (addr : Nat) (apart : m ≠ n) :
    (din.setAddr n addr).addrs m = din.addrs m :=
  Function.update_of_ne apart _ _

/-- An inode gets a direct block. -/
theorem owner_setAddr_direct (allocated : (table i).type ≠ .free) (direct : n < NDIRECT)
    (addr : Nat) : owner blocks (Function.update table i ((table i).setAddr n addr)) =
      Function.update (owner blocks table) (i, n) addr := by
  funext ⟨j, m⟩
  by_cases here : j = i
  · subst here
    simp only [owner, Function.update_self]
    rw [if_neg (show ¬ ((table j).setAddr n addr).type = .free from allocated)]
    by_cases same : m = n
    · subst same
      rw [Function.update_self, blockAddr_direct direct, setAddr_self]
    · have apart : (j, m) ≠ (j, n) := fun equal => same (Prod.mk.inj equal).2
      grind [Function.update_of_ne, owner_of_allocated, blockAddr, setAddr_of_ne]
  · have apart : (j, m) ≠ (i, n) := fun equal => here (Prod.mk.inj equal).1
    grind [Function.update_of_ne, owner]

/-- An inode without an indirect block gets a zeroed one. -/
theorem owner_setAddr_indirect (allocated : (table i).type ≠ .free)
    (none : (table i).addrs NDIRECT = 0) (zero : blocks addr = fun _ => 0) :
    owner blocks (Function.update table i ((table i).setAddr NDIRECT addr)) =
      Function.update (owner blocks table) (i, MAXFILE) addr := by
  funext ⟨j, m⟩
  by_cases here : j = i
  · subst here
    simp only [owner, Function.update_self]
    rw [if_neg (show ¬ ((table j).setAddr NDIRECT addr).type = .free from allocated)]
    by_cases same : m = MAXFILE
    · subst same
      rw [Function.update_self, blockAddr_indirect, setAddr_self]
    · have apart : (j, m) ≠ (j, MAXFILE) := fun equal => same (Prod.mk.inj equal).2
      rw [Function.update_of_ne apart, owner_of_allocated allocated]
      unfold blockAddr
      rw [setAddr_self, none]
      by_cases direct : m < NDIRECT
      · rw [if_pos direct, if_pos direct, setAddr_of_ne _ _ (by omega)]
      · simp only [direct, same, ↓reduceIte, zero, get32_zero, ite_self]
  · have apart : (j, m) ≠ (i, MAXFILE) := fun equal => here (Prod.mk.inj equal).1
    grind [Function.update_of_ne, owner]

/-- An entry of an inode's indirect block is set. -/
theorem Owned.owner_setEntry (owned : Owned blocks table bitmap)
    (allocated : (table i).type ≠ .free) (lower : NDIRECT ≤ n) (upper : n < MAXFILE)
    (some : (table i).addrs NDIRECT ≠ 0) (fits : addr < 2 ^ 32) :
    owner (Function.update blocks ((table i).addrs NDIRECT)
        (set32 (blocks ((table i).addrs NDIRECT)) (n - NDIRECT) addr)) table =
      Function.update (owner blocks table) (i, n) addr := by
  have pointer : owner blocks table (i, MAXFILE) = (table i).addrs NDIRECT := by
    rw [owner_of_allocated allocated, blockAddr_indirect]
  funext ⟨j, m⟩
  by_cases here : j = i
  · subst here
    simp only [owner, if_neg allocated]
    by_cases same : m = n
    · grind [Function.update_self, blockAddr_entry, get32_set32_self]
    · have apart : (j, m) ≠ (j, n) := fun equal => same (Prod.mk.inj equal).2
      rw [Function.update_of_ne apart, owner_of_allocated allocated]
      unfold blockAddr
      by_cases direct : m < NDIRECT
      · simp only [direct, ↓reduceIte]
      · by_cases inside : m < MAXFILE
        · grind [Function.update_self, get32_set32_of_ne]
        · simp only [direct, inside, ↓reduceIte]
  · have apart : (j, m) ≠ (i, n) := fun equal => here (Prod.mk.inj equal).1
    rw [Function.update_of_ne apart]
    simp only [owner]
    split
    · rfl
    rename_i other
    refine blockAddr_congr (fun used => ?_) m
    rw [Function.update_of_ne]
    intro same
    have own : owner blocks table (j, MAXFILE) = (table j).addrs NDIRECT := by
      rw [owner_of_allocated other, blockAddr_indirect]
    have different : (j, MAXFILE) ≠ (i, MAXFILE) := fun equal => here (Prod.mk.inj equal).1
    exact owned.apart (by rw [own]; exact used) different (by rw [own, pointer, same])

end Steps

end Xv6.Fs
