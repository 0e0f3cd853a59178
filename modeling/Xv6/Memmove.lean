import Xv6.Lib.Copy
import Xv6.Lib.Wrap

/- `memmove` of the kernel (string.c) and of the user library (ulib.c), over a memory of
2^32 bytes. The kernel's picks the direction of its loop, the library's always copies upwards. -/
namespace Xv6

abbrev Memory := UInt32 → UInt8

/-- The loop `while(n-- > 0) *d++ = *s++`. -/
def copyUp : Nat → UInt32 → UInt32 → Memory → Memory
  | 0, _, _, mem => mem
  | n + 1, d, s, mem => copyUp n (d + 1) (s + 1) (Function.update mem d (mem s))

/-- The loop `while(n-- > 0) *--d = *--s`. -/
def copyDown : Nat → UInt32 → UInt32 → Memory → Memory
  | 0, _, _, mem => mem
  | n + 1, d, s, mem => copyDown n (d - 1) (s - 1) (Function.update mem (d - 1) (mem (s - 1)))

/-- `memmove` of string.c: the pointer it returns and the memory it leaves. -/
def CString.memmove (dst src n : UInt32) (mem : Memory) : UInt32 × Memory :=
  if src < dst ∧ src + n > dst then (dst, copyDown n.toNat (dst + n) (src + n) mem)
  else (dst, copyUp n.toNat dst src mem)

/-- `memmove` of ulib.c, whose length is signed. -/
def Ulib.memmove (vdst vsrc : UInt32) (n : Int32) (mem : Memory) : UInt32 × Memory :=
  (vdst, copyUp n.toInt.toNat vdst vsrc mem)

/-- The bytes at the destination are those that were at the source, and no other byte changed. -/
structure Moved (dst src : UInt32) (n : Nat) (mem mem' : Memory) : Prop where
  moved : ∀ i < n, mem' (dst + UInt32.ofNat i) = mem (src + UInt32.ofNat i)
  others : ∀ a, (∀ i < n, a ≠ dst + UInt32.ofNat i) → mem' a = mem a

/-- Where the destination starts inside the source, the source repeats itself with the
distance between the two as its period. -/
def Repeats (dst src : UInt32) (n : Nat) (mem : Memory) : Prop :=
  src < dst → ∀ i, i + (dst - src).toNat < n → mem (dst + UInt32.ofNat i) = mem
    (src + UInt32.ofNat i)

section Loops

variable {dst src : UInt32} {n : Nat} {mem : Memory}

theorem copyUp_eq (n : Nat) (d s : UInt32) (mem : Memory) :
    copyUp n d s mem = Copy.copy (fun i => d + UInt32.ofNat i) (fun i => s + UInt32.ofNat i) mem
      (List.range n) := by
  induction n generalizing d s mem with
  | zero => rfl
  | succ n ih =>
    have shift (p : UInt32) : (fun i => p + UInt32.ofNat i) ∘ Nat.succ = fun i =>
      p + 1 + UInt32.ofNat i := by
      funext i
      simp only [Function.comp_apply, Nat.succ_eq_add_one, Wrap.add_ofNat_succ]
      grind
    have zero (p : UInt32) : p + UInt32.ofNat 0 = p := UInt32.add_zero p
    rw [copyUp, ih, List.range_succ_eq_map, Copy.copy_cons, Copy.copy_map, shift, shift, zero, zero]

theorem copyDown_eq (n : Nat) (d s : UInt32) (mem : Memory) :
    copyDown n (d + UInt32.ofNat n) (s + UInt32.ofNat n) mem =
      Copy.copy (fun i => d + UInt32.ofNat i) (fun i => s + UInt32.ofNat i) mem
        (List.range n).reverse := by
  induction n generalizing mem with
  | zero => rfl
  | succ n ih =>
    have back (p : UInt32) : p + UInt32.ofNat (n + 1) - 1 = p + UInt32.ofNat n := by
      rw [Wrap.add_ofNat_succ]
      grind
    rw [copyDown, back, back, ih, List.range_succ, List.reverse_append]
    rfl

theorem toNat_add_ofNat {p : UInt32} {i : Nat} (inside : p.toNat + i < 2 ^ 32) :
    (p + UInt32.ofNat i).toNat = p.toNat + i := by
  rw [UInt32.toNat_add, UInt32.toNat_ofNat', Nat.add_mod_mod, Nat.mod_eq_of_lt inside]

theorem same_address {i j : Nat} (dstFits : dst.toNat + i < 2 ^ 32)
    (srcFits : src.toNat + j < 2 ^ 32) :
    dst + UInt32.ofNat i = src + UInt32.ofNat j ↔ dst.toNat + i = src.toNat + j := by
  rw [← UInt32.toNat_inj, toNat_add_ofNat dstFits, toNat_add_ofNat srcFits]

theorem others_copy (order : List Nat) (all : ∀ i, i ∈ order ↔ i < n) (a : UInt32)
    (outside : ∀ i < n, a ≠ dst + UInt32.ofNat i) :
    Copy.copy (fun i => dst + UInt32.ofNat i) (fun i => src + UInt32.ofNat i) mem order a =
      mem a := by
  grind [Copy.copy_frame]

/-- A loop that never reads what it has written moves the region. -/
theorem moved_of_order {before : Nat → Nat → Prop} (dstFits : dst.toNat + n ≤ 2 ^ 32)
    (srcFits : src.toNat + n ≤ 2 ^ 32) (order : List Nat) (all : ∀ i, i ∈ order ↔ i < n)
    (sorted : order.Pairwise before) (apart : ∀ i j, before i j → i ≠ j)
    (unread : ∀ i j, i < n → j < n → before i j → dst.toNat + i ≠ src.toNat + j) :
    Moved dst src n mem
      (Copy.copy (fun i => dst + UInt32.ofNat i) (fun i => src + UInt32.ofNat i) mem order) := by
  refine ⟨fun i inside => ?_, others_copy order all⟩
  apply Copy.copy_moves (fun i => dst + UInt32.ofNat i) _ _ _ _ ((all i).mpr inside)
  · grind [List.Pairwise.imp_of_mem, same_address]
  · grind [List.Pairwise.imp_of_mem, same_address]

theorem moved_copyUp (dstFits : dst.toNat + n ≤ 2 ^ 32) (srcFits : src.toNat + n ≤ 2 ^ 32)
    (clear : dst.toNat ≤ src.toNat ∨ src.toNat + n ≤ dst.toNat) :
    Moved dst src n mem (copyUp n dst src mem) := by
  rw [copyUp_eq]
  apply moved_of_order dstFits srcFits _ (fun i => List.mem_range) List.pairwise_lt_range
  · omega
  · omega

theorem moved_copyDown (dstFits : dst.toNat + n ≤ 2 ^ 32) (srcFits : src.toNat + n ≤ 2 ^ 32)
    (below : src.toNat < dst.toNat) :
    Moved dst src n mem (copyDown n (dst + UInt32.ofNat n) (src + UInt32.ofNat n) mem) := by
  rw [copyDown_eq]
  apply moved_of_order dstFits srcFits _ (fun i => List.mem_reverse.trans List.mem_range)
    (List.pairwise_reverse.mpr List.pairwise_lt_range)
  · omega
  · omega

theorem toNat_distance (below : src < dst) : (dst - src).toNat = dst.toNat - src.toNat := by
  apply UInt32.toNat_sub_of_le
  exact UInt32.le_of_lt below

theorem src_ahead (i : Nat) :
    src + UInt32.ofNat (i + (dst - src).toNat) = dst + UInt32.ofNat i := by
  rw [UInt32.ofNat_add, UInt32.ofNat_toNat]
  grind

/-- Copying upwards into the source: the first bytes are the source's, and from there on every
byte is the one a distance before it. -/
theorem copyUp_overlap (mem : Memory) {j : Nat} (dstFits : dst.toNat + n ≤ 2 ^ 32)
    (below : src < dst) (inside : j < n) :
    copyUp n dst src mem (dst + UInt32.ofNat j) =
      if j < (dst - src).toNat then mem (src + UInt32.ofNat j)
      else copyUp n dst src mem (dst + UInt32.ofNat (j - (dst - src).toNat)) := by
  have distance := toNat_distance below
  rw [UInt32.lt_iff_toNat_lt] at below
  have apart : ∀ i k, i < n → k < n → dst + UInt32.ofNat i = dst + UInt32.ofNat k → i = k := by
    grind [same_address]
  have reads (m k : Nat) (within : k < m) (upTo : m ≤ n) :=
    Copy.copy_range (n := m) (fun i => dst + UInt32.ofNat i) (fun i => src + UInt32.ofNat i) mem
      (fun i k small small' => apart i k (by omega) (by omega)) within
  rw [copyUp_eq, distance]
  refine (reads n j inside (Nat.le_refl n)).trans ?_
  split
  · apply others_copy (n := j) _ fun i => List.mem_range
    grind [same_address]
  · have back : src + UInt32.ofNat j = dst + UInt32.ofNat (j - (dst.toNat - src.toNat)) := by
      rw [same_address (by omega) (by omega)]
      omega
    grind

theorem moved_copyUp_iff (mem : Memory) (dstFits : dst.toNat + n ≤ 2 ^ 32)
    (srcFits : src.toNat + n ≤ 2 ^ 32) :
    Moved dst src n mem (copyUp n dst src mem) ↔ Repeats dst src n mem := by
  constructor
  · intro right below i inside
    have step := copyUp_overlap mem dstFits below (j := i + (dst - src).toNat) inside
    grind [Nat.add_sub_cancel, Moved.moved, src_ahead]
  · intro repeats
    by_cases below : src < dst
    · refine ⟨fun j => ?_, fun a => ?_⟩
      · induction j using Nat.strong_induction_on with
        | _ j ih =>
          intro inside
          rw [copyUp_overlap mem dstFits below inside]
          split
          · rfl
          · have positive := toNat_distance below
            rw [UInt32.lt_iff_toNat_lt] at below
            rw [ih _ (by omega) (by omega), ← repeats below _ (by omega), ← src_ahead,
              Nat.sub_add_cancel (by omega)]
      · rw [copyUp_eq]
        exact others_copy _ (fun i => List.mem_range) a
    · grind [UInt32.lt_iff_toNat_lt, moved_copyUp]

theorem Moved.unique {left right : Memory} (first : Moved dst src n mem left)
    (second : Moved dst src n mem right) :
    left = right := by
  funext a
  by_cases inside : ∃ i < n, a = dst + UInt32.ofNat i
  · obtain ⟨i, less, rfl⟩ := inside
    rw [first.moved i less, second.moved i less]
  · have outside : ∀ i < n, a ≠ dst + UInt32.ofNat i := fun i less same => inside ⟨i, less, same⟩
    rw [first.others a outside, second.others a outside]

theorem memmove_fst (dst src n : UInt32) (mem : Memory) :
    (CString.memmove dst src n mem).1 = dst := by
  unfold CString.memmove
  split <;> rfl

theorem moved_memmove (mem : Memory) (small : n < 2 ^ 32) (dstFits : dst.toNat + n ≤ 2 ^ 32)
    (srcFits : src.toNat + n ≤ 2 ^ 32) :
    Moved dst src n mem (CString.memmove dst src (UInt32.ofNat n) mem).2 := by
  have length : (UInt32.ofNat n).toNat = n := UInt32.toNat_ofNat_of_lt' small
  unfold CString.memmove
  simp only [length, UInt32.lt_iff_toNat_lt, gt_iff_lt, UInt32.toNat_add]
  split
  · exact moved_copyDown dstFits srcFits (by omega)
  · -- A source that ends at the top of memory wraps to 0, but no destination above it fits.
    exact moved_copyUp dstFits srcFits (by omega)

end Loops

/-- The kernel's `memmove` moves every region that does not wrap. The library's does exactly
where the bytes it overwrites before it reads them are repeated by the source. -/
theorem memmove_libraries (mem : Memory) (dst src : UInt32) (n : Nat) (small : n < 2 ^ 32)
    (dstFits : dst.toNat + n ≤ 2 ^ 32) (srcFits : src.toNat + n ≤ 2 ^ 32) :
    Moved dst src n mem (CString.memmove dst src (UInt32.ofNat n) mem).2 ∧ (n < 2 ^ 31 →
      (Moved dst src n mem (Ulib.memmove dst src (Int32.ofNat n) mem).2 ↔ Repeats dst src n mem) ∧
      (Ulib.memmove dst src (Int32.ofNat n) mem = CString.memmove dst src (UInt32.ofNat n) mem ↔
        Repeats dst src n mem)) := by
  have kernel := moved_memmove mem small dstFits srcFits
  refine ⟨kernel, fun signed => ?_⟩
  have library : Ulib.memmove dst src (Int32.ofNat n) mem = (dst, copyUp n dst src mem) := by
    rw [Ulib.memmove, Int32.toInt_ofNat_of_lt signed]
    rfl
  have exact := moved_copyUp_iff mem dstFits srcFits
  rw [library]
  refine ⟨exact, fun same => exact.mp ?_, fun repeats => ?_⟩
  · rw [← same] at kernel
    exact kernel
  · exact Prod.ext (memmove_fst dst src _ mem).symm ((exact.mpr repeats).unique kernel)

/-- A destination one byte into the source: the library writes the first byte twice. -/
theorem memmove_libraries_overlap :
    ¬ ∀ (mem : Memory) (dst src : UInt32) (n : Nat), n < 2 ^ 31 → dst.toNat + n ≤ 2 ^ 32 →
      src.toNat + n ≤ 2 ^ 32 →
      Moved dst src n mem (CString.memmove dst src (UInt32.ofNat n) mem).2 ∧
      Moved dst src n mem (Ulib.memmove dst src (Int32.ofNat n) mem).2 ∧
      CString.memmove dst src (UInt32.ofNat n) mem = Ulib.memmove dst src (Int32.ofNat n) mem := by
  intro safe
  have moved := (safe (fun a => if a = 0 then 1 else 0) 1 0 2 (by decide) (by decide)
    (by decide)).2.1
  exact absurd (moved.moved 1 (by decide)) (by decide)

/-- A destination two bytes into a source of period two: both move it. -/
theorem memmove_libraries_periodic :
    let mem : Memory := fun a => a.toUInt8 % 2
    Moved 2 0 4 mem (CString.memmove 2 0 (UInt32.ofNat 4) mem).2 ∧
    Ulib.memmove 2 0 (Int32.ofNat 4) mem = CString.memmove 2 0 (UInt32.ofNat 4) mem := by
  intro mem
  have repeats : Repeats 2 0 4 mem := by
    intro _ i less
    have cases : i = 0 ∨ i = 1 := by
      change i + 2 < 4 at less
      omega
    rcases cases with rfl | rfl <;> rfl
  obtain ⟨kernel, library⟩ := memmove_libraries mem 2 0 4 (by decide) (by decide) (by decide)
  exact ⟨kernel, (library (by decide)).2.mpr repeats⟩

end Xv6
