import Xv6.Fs.Content

/- Directory entries and the bytes that hold them. -/
namespace Xv6.Fs

variable {blocks blocks' : Nat → Block} {din din' : Dinode}

structure Dirent where
  inum : Nat
  name : List UInt8
  deriving DecidableEq

/-- `sizeof(struct dirent)` -/
abbrev DIRENTSIZE : Nat := 2 + DIRSIZ

/-- The entry with its `ushort` inum in front of the DIRSIZ bytes of its name. -/
def Dirent.bytes (de : Dirent) : List UInt8 :=
  UInt8.ofNat de.inum :: UInt8.ofNat (de.inum / 2 ^ 8) :: de.name

def Dirent.ofBytes (bytes : List UInt8) : Dirent :=
  ⟨(bytes.getD 0 0).toNat + 2 ^ 8 * (bytes.getD 1 0).toNat, bytes.drop 2⟩

theorem Dirent.ofBytes_bytes (de : Dirent) (fits : de.inum < 2 ^ 16) : ofBytes de.bytes = de := by
  cases de with
  | mk inum name =>
    simp only [bytes, ofBytes, List.getD_cons_zero, List.getD_cons_succ, List.drop_succ_cons,
      List.drop_zero, UInt8.toNat_ofNat', mk.injEq, and_true]
    simp only at fits
    omega

/-- An entry that is not in use. -/
def Dirent.zero : Dirent := ⟨0, List.replicate DIRSIZ 0⟩

/-- The entries that an inode's content holds. -/
def entriesOf (blocks : Nat → Block) (din : Dinode) : List Dirent :=
  (List.range (din.size / DIRENTSIZE)).map fun k =>
    Dirent.ofBytes (contentOf blocks din (DIRENTSIZE * k) DIRENTSIZE)

theorem entriesOf_length (blocks : Nat → Block) (din : Dinode) :
    (entriesOf blocks din).length = din.size / DIRENTSIZE := by
  rw [entriesOf, List.length_map, List.length_range]

theorem entriesOf_getElem? (blocks : Nat → Block) (din : Dinode) {k : Nat}
    (inside : k < din.size / DIRENTSIZE) : (entriesOf blocks din)[k]? =
      some (Dirent.ofBytes (contentOf blocks din (DIRENTSIZE * k) DIRENTSIZE)) := by
  rw [entriesOf, List.getElem?_map, List.getElem?_range inside, Option.map_some]

/-- The content of two inodes with the same bytes. -/
theorem contentOf_congr {off n : Nat}
    (same : ∀ k, off ≤ k → k < off + n → byteAt blocks' din' k = byteAt blocks din k) :
    contentOf blocks' din' off n = contentOf blocks din off n := by
  refine List.map_congr_left fun k member => ?_
  have small := List.mem_range.mp member
  exact same (off + k) (by omega) (by omega)

theorem contentOf_eq {off : Nat} {src : List UInt8}
    (same : ∀ k, off ≤ k → k < off + src.length → byteAt blocks din k = src.getD (k - off) 0) :
    contentOf blocks din off src.length = src := by
  refine List.ext_getElem (by rw [contentOf, List.length_map, List.length_range])
    fun k left right => ?_
  simp only [contentOf, List.getElem_map, List.getElem_range]
  grind

/-- The entries of an inode depend on the bytes up to its size. -/
theorem entriesOf_congr (size : din'.size = din.size)
    (same : ∀ k, k < din.size → byteAt blocks' din' k = byteAt blocks din k) :
    entriesOf blocks' din' = entriesOf blocks din := by
  rw [entriesOf, entriesOf, size]
  refine List.map_congr_left fun k member => ?_
  have small := List.mem_range.mp member
  rw [contentOf_congr fun j lower upper => same j ?_]
  grind

/-- A write of one entry behind the last one. -/
theorem entriesOf_push {n : Nat} {de : Dirent} (size : din.size = DIRENTSIZE * n)
    (size' : din'.size = DIRENTSIZE * (n + 1))
    (same : ∀ k, k < din.size → byteAt blocks' din' k = byteAt blocks din k)
    (new : contentOf blocks' din' (DIRENTSIZE * n) DIRENTSIZE = de.bytes)
    (fits : de.inum < 2 ^ 16) :
    entriesOf blocks' din' = entriesOf blocks din ++ [de] := by
  have count : din.size / DIRENTSIZE = n := by grind
  have count' : din'.size / DIRENTSIZE = n + 1 := by grind
  rw [entriesOf, entriesOf, count, count', List.range_succ, List.map_append,
    List.map_singleton, new, Dirent.ofBytes_bytes de fits]
  congr 1
  refine List.map_congr_left fun k member => ?_
  have small := List.mem_range.mp member
  rw [contentOf_congr fun j lower upper => same j ?_]
  grind

end Xv6.Fs
