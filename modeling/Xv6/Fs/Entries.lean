import Xv6.Fs.Dir

/- The entries of a directory as a list: looking a name up, finding room for one and
writing one. -/
namespace Xv6.Fs

open CString

variable {name : List UInt8} {ents : List Dirent} {k : Nat} {de : Dirent}

/-- The slot and the inum of the first entry in use with the name. -/
def scan (name : List UInt8) : List Dirent → Option (Nat × Nat)
  | [] => none
  | de :: rest =>
    if de.inum ≠ 0 ∧ namecmp name de.name = 0 then some (0, de.inum)
    else (scan name rest).map fun found => (found.1 + 1, found.2)

/-- The first slot that is not in use, or the one behind the last. -/
def firstFree (ents : List Dirent) : Nat := ents.findIdx fun de => de.inum = 0

/-- Entry `k`, which may be the one behind the last, is now `de`. -/
def putEntry (ents : List Dirent) (k : Nat) (de : Dirent) : List Dirent :=
  if k < ents.length then ents.set k de else ents ++ [de]

/-- The entry is in use and has the name. -/
def Dirent.Is (de : Dirent) (name : List UInt8) : Prop :=
  de.inum ≠ 0 ∧ fieldString DIRSIZ de.name = fieldString DIRSIZ name

theorem namecmp_eq_zero (s t : List UInt8) :
    namecmp s t = 0 ↔ fieldString DIRSIZ s = fieldString DIRSIZ t :=
  strncmp_eq_zero DIRSIZ s t

theorem Dirent.is_iff (de : Dirent) (name : List UInt8) :
    de.inum ≠ 0 ∧ namecmp name de.name = 0 ↔ de.Is name := by
  rw [namecmp_eq_zero, Dirent.Is, eq_comm (a := fieldString DIRSIZ name)]

theorem scan_eq_none : scan name ents = none ↔ ∀ de ∈ ents, ¬ de.Is name := by
  induction ents with
  | nil => simp [scan]
  | cons de rest ih =>
    rw [scan]
    split
    · rename_i here
      simp [(de.is_iff name).mp here]
    · rename_i other
      rw [de.is_iff name] at other
      simp [ih, other]

theorem scan_eq_some {I : Nat} :
    scan name ents = some (k, I) ↔ ∃ de, ents[k]? = some de ∧ de.Is name ∧ de.inum = I ∧
      ∀ j < k, ∀ e, ents[j]? = some e → ¬ e.Is name := by
  induction ents generalizing k with
  | nil => simp [scan]
  | cons first rest ih =>
    rw [scan]
    split
    · rename_i here
      rw [first.is_iff name] at here
      constructor
      · grind
      · rintro ⟨de, at_, is, rfl, before⟩
        cases k with
        | zero =>
          cases at_
          rfl
        | succ k => exact (before 0 (Nat.succ_pos k) first rfl here).elim
    · rename_i other
      rw [first.is_iff name] at other
      constructor
      · intro found
        obtain ⟨⟨k', I'⟩, tail, same⟩ := Option.map_eq_some_iff.mp found
        cases same
        obtain ⟨de, at_, is, inum, before⟩ := ih.mp tail
        refine ⟨de, at_, is, inum, fun j below e there => ?_⟩
        cases j with
        | zero =>
          cases there
          exact other
        | succ j => exact before j (by omega) e there
      · rintro ⟨de, at_, is, inum, before⟩
        cases k with
        | zero =>
          cases at_
          exact (other is).elim
        | succ k =>
          have tail : scan name rest = some (k, I) :=
            ih.mpr ⟨de, at_, is, inum, fun j below e there => before (j + 1) (by omega) e there⟩
          rw [tail]
          rfl

theorem scan_congr {name' : List UInt8} (same : fieldString DIRSIZ name = fieldString DIRSIZ name')
    (ents : List Dirent) : scan name ents = scan name' ents := by
  induction ents with
  | nil => rfl
  | cons de rest ih => simp only [scan, ih, namecmp_eq_zero, same]

theorem firstFree_le (ents : List Dirent) : firstFree ents ≤ ents.length := List.findIdx_le_length

/-- The first free slot is not in use. -/
theorem inum_firstFree (at_ : ents[firstFree ents]? = some de) : de.inum = 0 := by
  obtain ⟨inside, rfl⟩ := List.getElem?_eq_some_iff.mp at_
  have free := @List.findIdx_getElem _ (fun de : Dirent => decide (de.inum = 0)) ents inside
  exact of_decide_eq_true free

theorem getElem?_putEntry (de : Dirent) (fits : k ≤ ents.length) (j : Nat) :
    (putEntry ents k de)[j]? = if j = k then some de else ents[j]? := by
  unfold putEntry
  split
  · grind
  · have last : k = ents.length := by omega
    subst last
    grind

/-- No name stands twice among the entries in use. -/
def OneEach (ents : List Dirent) : Prop :=
  ∀ (j k : Nat) (d e : Dirent), ents[j]? = some d → ents[k]? = some e → d.inum ≠ 0 →
    e.Is d.name → j = k

/-- Another entry with a new name or not in use. -/
theorem OneEach.put (once : OneEach ents) (fits : k ≤ ents.length)
    (new : de.inum ≠ 0 → ∀ e ∈ ents, ¬ e.Is de.name) : OneEach (putEntry ents k de) := by
  intro i j d e here there used same
  rw [getElem?_putEntry _ fits] at here there
  split at here <;> split at there
  · omega
  · grind
  · cases there
    exact (new same.1 d (List.mem_of_getElem? here) ⟨used, same.2.symm⟩).elim
  · exact once i j d e here there used same

theorem mem_putEntry {e : Dirent} (member : e ∈ putEntry ents k de) : e = de ∨ e ∈ ents := by
  unfold putEntry at member
  grind

section NewEntry

variable {I : Nat}

/-- The entry that `dirlink` makes for a name. -/
def newEntry (name : List UInt8) (I : Nat) : Dirent := ⟨I, strncpy name DIRSIZ⟩

theorem newEntry_is (nonzero : I ≠ 0) : (newEntry name I).Is name :=
  ⟨nonzero, fieldString_strncpy DIRSIZ name⟩

/-- A name that a scan does not find is a new one. -/
theorem newEntry_new (absent : scan name ents = none) (e : Dirent) (member : e ∈ ents) :
    ¬ e.Is (newEntry name I).name :=
  fun is => scan_eq_none.mp absent e member ⟨is.1, is.2.trans (fieldString_strncpy DIRSIZ name)⟩

/-- An entry in use is not in the first free slot. -/
theorem ne_firstFree (at_ : ents[k]? = some de) (used : de.inum ≠ 0) : k ≠ firstFree ents := by
  rintro rfl
  exact used (inum_firstFree at_)

/-- A name that was not there is found in the slot where it was put. -/
theorem scan_put_self (absent : scan name ents = none) (nonzero : I ≠ 0) :
    scan name (putEntry ents (firstFree ents) (newEntry name I)) = some (firstFree ents, I) := by
  have fits := firstFree_le ents
  refine scan_eq_some.mpr ⟨newEntry name I, ?_, newEntry_is nonzero, rfl, fun j below e there => ?_⟩
  · rw [getElem?_putEntry _ fits, if_pos rfl]
  · grind [getElem?_putEntry, Nat.ne_of_lt, scan_eq_none, List.mem_of_getElem?]

/-- The other names are found where they were. -/
theorem scan_put_other {n : List UInt8} {J : Nat} (there : scan n ents = some (k, J))
    (absent : scan name ents = none) :
    scan n (putEntry ents (firstFree ents) (newEntry name I)) = some (k, J) := by
  have fits := firstFree_le ents
  obtain ⟨de, at_, is, inum, before⟩ := scan_eq_some.mp there
  refine scan_eq_some.mpr ⟨de, ?_, is, inum, fun j below e here => ?_⟩
  · rw [getElem?_putEntry _ fits, if_neg (ne_firstFree at_ is.1)]
    exact at_
  · rw [getElem?_putEntry _ fits] at here
    split at here
    · cases here
      intro same
      have equal : fieldString DIRSIZ name = fieldString DIRSIZ n :=
        (fieldString_strncpy DIRSIZ name).symm.trans same.2
      rw [scan_congr equal, there] at absent
      cases absent
    · exact before j below e here

end NewEntry

/-- A write of entry `k`, which may be the one behind the last. -/
theorem entriesOf_put {blocks blocks' : Nat → Block} {din din' : Dinode} {src : List UInt8}
    (start : DIRENTSIZE * k ≤ din.size)
    (size : din'.size = max din.size (DIRENTSIZE * k + DIRENTSIZE))
    (inside : contentOf blocks' din' (DIRENTSIZE * k) DIRENTSIZE = src)
    (outside : ∀ j, j < DIRENTSIZE * k ∨ DIRENTSIZE * k + DIRENTSIZE ≤ j → j < din.size →
      byteAt blocks' din' j = byteAt blocks din j) :
    entriesOf blocks' din' = putEntry (entriesOf blocks din) k (Dirent.ofBytes src) := by
  have count : k ≤ din.size / DIRENTSIZE := by grind
  have count' : din'.size / DIRENTSIZE = max (din.size / DIRENTSIZE) (k + 1) := by grind
  refine List.ext_getElem? fun j => ?_
  rw [getElem?_putEntry _ (by rw [entriesOf_length]; exact count)]
  by_cases here : j = k
  · grind [entriesOf_getElem?]
  · rw [if_neg here]
    by_cases below : j < din.size / DIRENTSIZE
    · rw [entriesOf_getElem? _ _ (by omega), entriesOf_getElem? _ _ below]
      have same : contentOf blocks' din' (DIRENTSIZE * j) DIRENTSIZE =
          contentOf blocks din (DIRENTSIZE * j) DIRENTSIZE := by
        refine contentOf_congr fun l lower upper => outside l ?_ ?_
        · grind
        · grind
      rw [same]
    · grind [List.getElem?_eq_none, entriesOf_length]

end Xv6.Fs
