import Mathlib.Data.List.Basic
import Mathlib.Logic.Function.Basic
import Xv6.Params

/- What fs.h puts on the disk: inodes, and blocks of bytes that hold file data or
the block numbers of an indirect block. -/
namespace Xv6.Fs

/-- 0, T_DIR, T_FILE and T_DEV. -/
inductive Itype where
  | free
  | dir
  | file
  | dev
  deriving DecidableEq

/-- The value of `x` as a `short`. -/
def toShort (x : Int) : Int := Int.bmod x 65536

/-- The value of `x` as a `ushort`. -/
def toUshort (x : Int) : Nat := (x % 65536).toNat

structure Dinode where
  type : Itype
  major : Int
  minor : Int
  nlink : Int
  size : Nat
  uid : Nat
  gid : Nat
  mode : Nat
  addrs : Nat → Nat

/-- An inode of zero bytes. -/
def Dinode.zero : Dinode := ⟨.free, 0, 0, 0, 0, 0, 0, 0, fun _ => 0⟩

/-- The BSIZE bytes of a block, by offset. -/
abbrev Block := Nat → UInt8

/-- `memmove(b + off, src, n)` for the bytes `src`. -/
def overwrite (b : Block) (off : Nat) (src : List UInt8) : Block := fun k =>
  if off ≤ k ∧ k < off + src.length then src.getD (k - off) 0 else b k

/-- A `uint` as the machine stores it, and reads it back. -/
def bytes32 (v : Nat) : List UInt8 :=
  [UInt8.ofNat v, UInt8.ofNat (v / 2 ^ 8), UInt8.ofNat (v / 2 ^ 16), UInt8.ofNat (v / 2 ^ 24)]

/-- `a[i]`, for the block as an array of `uint`. -/
def get32 (b : Block) (i : Nat) : Nat :=
  (b (4 * i)).toNat + 2 ^ 8 * (b (4 * i + 1)).toNat + 2 ^ 16 * (b (4 * i + 2)).toNat +
    2 ^ 24 * (b (4 * i + 3)).toNat

def set32 (b : Block) (i v : Nat) : Block := overwrite b (4 * i) (bytes32 v)

theorem overwrite_inside (b : Block) (off : Nat) (src : List UInt8) (k : Nat) (lower : off ≤ k)
    (upper : k < off + src.length) : overwrite b off src k = src.getD (k - off) 0 := by
  simp only [overwrite, lower, upper, and_self, ↓reduceIte]

theorem overwrite_outside (b : Block) (off : Nat) (src : List UInt8) (k : Nat)
    (outside : k < off ∨ off + src.length ≤ k) : overwrite b off src k = b k := by
  have absent : ¬ (off ≤ k ∧ k < off + src.length) := by omega
  simp only [overwrite, absent, ↓reduceIte]

theorem get32_set32_self (b : Block) (i v : Nat) (fits : v < 2 ^ 32) :
    get32 (set32 b i v) i = v := by
  have byte : ∀ k < 4, set32 b i v (4 * i + k) = (bytes32 v).getD k 0 := by
    intro k small
    rw [set32, overwrite_inside _ _ _ _ (by omega) (by simp [bytes32]; omega)]
    congr 1
    omega
  have first := byte 0 (by omega)
  rw [Nat.add_zero] at first
  rw [get32, first, byte 1 (by omega), byte 2 (by omega), byte 3 (by omega)]
  simp only [bytes32, List.getD_cons_zero, List.getD_cons_succ, UInt8.toNat_ofNat']
  omega

theorem get32_set32_of_ne (b : Block) {i j : Nat} (v : Nat) (apart : j ≠ i) :
    get32 (set32 b i v) j = get32 b j := by
  have byte : ∀ k < 4, set32 b i v (4 * j + k) = b (4 * j + k) := by
    intro k small
    refine overwrite_outside _ _ _ _ ?_
    simp only [bytes32, List.length_cons, List.length_nil]
    omega
  have first := byte 0 (by omega)
  rw [Nat.add_zero] at first
  rw [get32, get32, first, byte 1 (by omega), byte 2 (by omega), byte 3 (by omega)]

@[simp] theorem get32_zero (i : Nat) : get32 (fun _ => 0) i = 0 := rfl

end Xv6.Fs
