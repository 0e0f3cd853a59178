import Xv6.Fs.Removal

/- The directories that are linked form a tree, and the link count of an inode is the number
of entries in them that refer to it. What keeps this: an inode without links appears or
vanishes, a file gets or loses a link, a directory is put into its parent or taken out. -/
namespace Xv6.Fs

open Namecache CString

section References

/-- A directory that is still linked. -/
def World.LinkedDir (w : World) (D : Nat) : Prop := w.type D = .dir ∧ 0 < w.nlink D

instance (w : World) (D : Nat) : Decidable (w.LinkedDir D) := inferInstanceAs (Decidable (_ ∧ _))

/-- Entry `k` of the linked directory `D` is in use, with a name other than ".", for inode `j`. -/
def World.Refers (w : World) (j D k : Nat) : Prop :=
  w.LinkedDir D ∧ ∃ de ∈ (w.entries D)[k]?, de.inum ≠ 0 ∧ ¬ de.Is [46] ∧ de.inum = j

instance (de : Dirent) (name : List UInt8) :
    Decidable (de.Is name) := inferInstanceAs (Decidable (_ ∧ _))

instance (w : World) (j D k : Nat) :
    Decidable (w.Refers j D k) := inferInstanceAs (Decidable (_ ∧ _))

/-- The entries, with a name other than ".", of linked directories for inode `j`. -/
@[irreducible] def World.references (w : World) (j : Nat) : Finset (Σ _ : Nat, Nat) :=
  (Finset.range NINODES).sigma fun D => (Finset.range (w.entries D).length).filter fun k =>
    w.Refers j D k

/-- The inode of "..". -/
def World.up (w : World) (D : Nat) : Option Nat := (w.entries D)[1]?.map Dirent.inum

variable {w w' : World} {j D P X I k : Nat}

theorem mem_references (numbered : w.Numbered) : ⟨D, k⟩ ∈ w.references j ↔ w.Refers j D k := by
  unfold World.references
  simp only [Finset.mem_sigma, Finset.mem_filter, Finset.mem_range]
  refine ⟨fun member => member.2.2, fun refers => ⟨?_, ?_, refers⟩⟩
  · refine (numbered D ?_).2
    rw [refers.1.1]
    exact Itype.noConfusion
  · obtain ⟨de, there, _⟩ := refers.2
    exact (List.getElem?_eq_some_iff.mp there).1

theorem card_same (numbered : w.Numbered) (numbered' : w'.Numbered)
    (same : ∀ D k, w'.Refers j D k ↔ w.Refers j D k) :
    (w'.references j).card = (w.references j).card := by
  congr 1
  grind [mem_references]

theorem card_succ (numbered : w.Numbered) (numbered' : w'.Numbered) (new : ¬ w.Refers j P k)
    (more : ∀ D l, w'.Refers j D l ↔ w.Refers j D l ∨ D = P ∧ l = k) :
    (w'.references j).card = (w.references j).card + 1 := by
  have absent : ⟨P, k⟩ ∉ w.references j := fun member => new ((mem_references numbered).mp member)
  rw [← Finset.card_insert_of_notMem absent]
  congr 1
  ext ⟨D, l⟩
  rw [Finset.mem_insert, mem_references numbered, mem_references numbered', more, or_comm]
  simp only [Sigma.mk.injEq, heq_eq_eq]

theorem card_eq_zero (numbered : w.Numbered) :
    (w.references j).card = 0 ↔ ∀ D k, ¬ w.Refers j D k := by
  rw [Finset.card_eq_zero, Finset.eq_empty_iff_forall_notMem]
  refine ⟨fun none D k refers => none ⟨D, k⟩ ((mem_references numbered).mpr refers), ?_⟩
  grind [mem_references]

/-- Only the first entry of a tidy directory has the name ".". -/
theorem Tidy.not_dot {ents : List Dirent} {de : Dirent} (tidy : Tidy D ents)
    (at_ : ents[k]? = some de) (behind : k ≠ 0) : ¬ de.Is [46] := by
  intro is
  obtain ⟨dot, first, isDot, _⟩ := tidy.dot
  exact behind (tidy.names 0 k dot de first at_ isDot.1 ⟨is.1, is.2.trans isDot.2.symm⟩).symm

theorem refers_of_entry {de : Dirent} (tidy : AllTidy w) (linked : w.LinkedDir D)
    (at_ : (w.entries D)[k]? = some de) (behind : k ≠ 0) (used : de.inum ≠ 0) :
    w.Refers de.inum D k :=
  ⟨linked, de, at_, used, (tidy D linked.1).not_dot at_ behind, rfl⟩

theorem World.Refers.pos (refers : w.Refers j D k) (tidy : AllTidy w) : k ≠ 0 := by
  rintro rfl
  obtain ⟨linked, de, at_, _, other, _⟩ := refers
  obtain ⟨dot, first, is, _⟩ := (tidy D linked.1).dot
  grind

/-- The ".." of a linked directory refers to its parent. -/
theorem refers_up (tidy : AllTidy w) (linked : w.LinkedDir D) (up : w.up D = some P) :
    w.Refers P D 1 := by
  obtain ⟨de, at_, rfl⟩ := Option.map_eq_some_iff.mp up
  obtain ⟨second, there, is⟩ := (tidy D linked.1).dotdot
  rw [there, Option.some.injEq] at at_
  subst at_
  exact refers_of_entry tidy linked there one_ne_zero is.1

theorem World.Refers.up (refers : w.Refers j D 1) : w.up D = some j := by
  obtain ⟨_, de, at_, _, _, rfl⟩ := refers
  rw [World.up, at_]
  rfl

theorem Empty.none {ents : List Dirent} {de : Dirent} (empty : Empty ents)
    (at_ : ents[k]? = some de) (back : 2 ≤ k) :
    de.inum = 0 := by
  refine empty de (List.mem_of_getElem? (i := k - 2) ?_)
  rw [List.getElem?_drop, show 2 + (k - 2) = k by omega]
  exact at_

theorem refers_congr {l : Nat} (linked : w'.LinkedDir D ↔ w.LinkedDir D)
    (entry : (w'.entries D)[l]? = (w.entries D)[l]?) : w'.Refers j D l ↔ w.Refers j D l := by
  rw [World.Refers, World.Refers, linked, entry]

end References

/-- The linked directories are a tree: each has one entry in its "..", except for the root.
Link counts are the numbers of references. -/
structure Forest (w : World) : Prop where
  numbered : w.Numbered
  tidy : AllTidy w
  /-- A directory without links has no entries but "." and "..". -/
  bare : ∀ D, w.type D = .dir → ¬ w.LinkedDir D → Empty (w.entries D)
  up : ∀ D, w.type D = .dir → ∃ P, w.up D = some P ∧ w.LinkedDir P
  root : w.LinkedDir ROOTINO ∧ w.up ROOTINO = some ROOTINO
  top : ∀ D k, 2 ≤ k → ¬ w.Refers ROOTINO D k
  home : ∀ j, w.LinkedDir j → j ≠ ROOTINO → ∃ P k, w.up j = some P ∧ 2 ≤ k ∧
    ∀ D l, 2 ≤ l → (w.Refers j D l ↔ D = P ∧ l = k)
  count : ∀ j, w.type j ≠ .free → w.nlink j = (w.references j).card
  unnamed : ∀ j, w.type j = .free → ∀ D k, ¬ w.Refers j D k

section Facts

variable {w w' : World} {j D P X I k : Nat}

theorem LinkedDir.allocated (linked : w.LinkedDir D) : w.type D ≠ .free := by
  rw [linked.1]
  exact Itype.noConfusion

/-- An inode without links has no references. -/
theorem Forest.no_references (forest : Forest w) (zero : w.nlink X = 0) (D k : Nat) :
    ¬ w.Refers X D k := by
  by_cases free : w.type X = .free
  · exact forest.unnamed X free D k
  · have count := forest.count X free
    exact (card_eq_zero forest.numbered).mp (by omega) D k

/-- Every entry in use of a directory is for an allocated inode. -/
theorem Forest.named (forest : Forest w) (dir : w.type D = .dir) {de : Dirent}
    (member : de ∈ w.entries D) (used : de.inum ≠ 0) : w.type de.inum ≠ .free := by
  obtain ⟨k, at_⟩ := List.mem_iff_getElem?.mp member
  match k, at_ with
  | 0, at_ =>
    obtain ⟨dot, first, _, self⟩ := (forest.tidy D dir).dot
    grind
  | 1, at_ =>
    obtain ⟨P, up, linked⟩ := forest.up D dir
    grind [World.up, LinkedDir.allocated]
  | k + 2, at_ =>
    intro free
    have linked : w.LinkedDir D := by grind [bare, Empty.none]
    exact forest.unnamed _ free D _ (refers_of_entry forest.tidy linked at_ (by omega) used)

/-- An inode appears or vanishes that has no links. -/
theorem Forest.other (forest : Forest w) (unlinked : ¬ w.LinkedDir X)
    (none : ∀ D k, ¬ w.Refers X D k) (type : ∀ j, j ≠ X → w'.type j = w.type j)
    (nlink : ∀ j, j ≠ X → w'.nlink j = w.nlink j)
    (entries : ∀ j, j ≠ X → w'.entries j = w.entries j) (zero : w'.type X ≠ .free → w'.nlink X = 0)
    (small : X ≠ 0 ∧ X < NINODES)
    (dir : w'.type X = .dir → Tidy X (w'.entries X) ∧ Empty (w'.entries X) ∧ ∃ P, w'.up X = some P ∧
      w.LinkedDir P) :
    Forest w' := by
  have unlinked' : ¬ w'.LinkedDir X := by
    rintro ⟨isDir, positive⟩
    have := zero (by rw [isDir]; exact Itype.noConfusion)
    omega
  have linked : ∀ D, w'.LinkedDir D ↔ w.LinkedDir D := by
    intro D
    by_cases here : D = X
    · grind
    · rw [World.LinkedDir, World.LinkedDir, type D here, nlink D here]
  have refers : ∀ j D k, w'.Refers j D k ↔ w.Refers j D k := by
    intro j D k
    by_cases here : D = X
    · subst here
      exact iff_of_false (fun refers => unlinked' refers.1) fun refers => unlinked refers.1
    · exact refers_congr (linked D) (by rw [entries D here])
  have apart : ∀ D, w.LinkedDir D → D ≠ X := fun D isLinked same => unlinked (same ▸ isLinked)
  have up : ∀ D, D ≠ X → w'.up D = w.up D := fun D here => by
    rw [World.up, World.up, entries D here]
  have numbered : w'.Numbered := by
    intro j allocated
    by_cases here : j = X
    · rw [here]
      exact small
    · rw [type j here] at allocated
      exact forest.numbered j allocated
  refine ⟨numbered, fun D isDir => ?_, fun D isDir other => ?_, fun D isDir => ?_, ?_, ?_,
    fun j isLinked other => ?_, fun j allocated => ?_, fun j free D k => ?_⟩
  · by_cases here : D = X
    · subst here
      exact (dir isDir).1
    · rw [type D here] at isDir
      rw [entries D here]
      exact forest.tidy D isDir
  · by_cases here : D = X
    · subst here
      exact (dir isDir).2.1
    · grind [bare]
  · simp only [linked]
    by_cases here : D = X
    · subst here
      exact (dir isDir).2.2
    · grind [up]
  · grind [root]
  · simp only [refers]
    exact forest.top
  · rw [linked] at isLinked
    simp only [refers]
    rw [up j (apart j isLinked)]
    exact forest.home j isLinked other
  · rw [card_same forest.numbered numbered (refers j)]
    by_cases here : j = X
    · grind [card_eq_zero, numbered]
    · grind [count]
  · rw [refers]
    by_cases here : j = X
    · rw [here]
      exact none D k
    · grind [unnamed]

end Facts

section Links

variable {w w' : World} {D P X I k : Nat}

/-- `w'` has one entry more than `w`: entry `k` of directory `P`, for inode `I`. -/
structure OneMore (w w' : World) (P k I : Nat) : Prop where
  type : ∀ j, w'.type j = w.type j
  back : 2 ≤ k
  other : ∀ D l : Nat, D ≠ P ∨ l ≠ k → (w'.entries D)[l]? = (w.entries D)[l]?
  before : ∀ de, (w.entries P)[k]? = some de → de.inum = 0
  after : ∃ de, (w'.entries P)[k]? = some de ∧ de.inum ≠ 0 ∧ de.inum = I

theorem OneMore.entries (more : OneMore w w' P k I) (apart : D ≠ P) : w'.entries D = w.entries D :=
  List.ext_getElem? fun l => more.other D l (Or.inl apart)

theorem OneMore.up (more : OneMore w w' P k I) (D : Nat) : w'.up D = w.up D := by
  have back := more.back
  rw [World.up, World.up, more.other D 1 (Or.inr (by omega))]

theorem OneMore.numbered (more : OneMore w w' P k I) : w'.Numbered ↔ w.Numbered := by
  simp only [World.Numbered, more.type]

theorem OneMore.new (more : OneMore w w' P k I) (j : Nat) : ¬ w.Refers j P k := by
  rintro ⟨_, de, at_, used, _⟩
  exact used (more.before de at_)

/-- The references of a directory that is linked in both or in none. -/
theorem OneMore.refers (more : OneMore w w' P k I) (tidy : AllTidy w') (parent : w'.LinkedDir P)
    {j l : Nat} (linked : w'.LinkedDir D ↔ w.LinkedDir D) :
    w'.Refers j D l ↔ w.Refers j D l ∨ j = I ∧ D = P ∧ l = k := by
  have back := more.back
  by_cases here : D = P ∧ l = k
  · obtain ⟨rfl, rfl⟩ := here
    obtain ⟨de, at_, used, inum⟩ := more.after
    constructor
    · rintro ⟨_, de', there, _, _, rfl⟩
      grind
    · rintro (old | ⟨rfl, _⟩)
      · exact (more.new j old).elim
      · grind [refers_of_entry]
  · grind [refers_congr, other]

/-- Only files may have gained or lost references. -/
theorem Forest.relink {files : Nat → Prop} (forest : Forest w) (tidy : AllTidy w')
    (type : ∀ j, w'.type j = w.type j)
    (up : ∀ D, w'.up D = w.up D) (entries : ∀ D, ¬ w.LinkedDir D → w'.entries D = w.entries D)
    (nlink : ∀ j, ¬ files j → w'.nlink j = w.nlink j)
    (refers : ∀ j, ¬ files j → ∀ D l, w'.Refers j D l ↔ w.Refers j D l)
    (file : ∀ j, files j → w.type j ≠ .dir ∧ w.type j ≠ .free ∧
    w'.nlink j = (w'.references j).card) : Forest w' := by
  have linked : ∀ D, w'.LinkedDir D ↔ w.LinkedDir D := by
    intro D
    by_cases here : files D
    · grind [World.LinkedDir]
    · rw [World.LinkedDir, World.LinkedDir, type, nlink D here]
  have apart : ∀ {j}, w.LinkedDir j → ¬ files j := fun isLinked here => (file _ here).1 isLinked.1
  have numbered : w'.Numbered := by
    intro j
    rw [type]
    exact forest.numbered j
  refine ⟨numbered, tidy, fun D isDir other => ?_, fun D isDir => ?_, ?_, fun D l back => ?_,
    fun j isLinked other => ?_, fun j allocated => ?_, fun j free => ?_⟩
  · grind [bare]
  · grind [up]
  · rw [up, linked]
    exact forest.root
  · grind [root, top]
  · rw [linked] at isLinked
    simp only [refers j (apart isLinked), up]
    exact forest.home j isLinked other
  · rw [type] at allocated
    by_cases here : files j
    · exact (file j here).2.2
    · grind [card_same, numbered, count]
  · rw [type] at free
    have here : ¬ files j := fun here => (file j here).2.1 free
    simp only [refers j here]
    exact forest.unnamed j free

/-- Only types, link counts and entries matter. -/
theorem Forest.congr (forest : Forest w) (type : ∀ j, w'.type j = w.type j)
    (nlink : ∀ j, w'.nlink j = w.nlink j) (entries : ∀ j, w'.entries j = w.entries j) :
    Forest w' := by
  refine @Forest.relink w w' (fun _ => False) forest (forest.tidy.congr type entries) type
    (fun D => ?_)
    (fun D _ => entries D) (fun j _ => nlink j) (fun j _ D l => refers_congr ?_ ?_)
    (fun _ => False.elim)
  · rw [World.up, World.up, entries]
  · rw [World.LinkedDir, World.LinkedDir, type, nlink]
  · rw [entries]

/-- A file gets one link more. -/
theorem Forest.link (forest : Forest w) (more : OneMore w w' P k I) (tidy : AllTidy w')
    (parent : w.LinkedDir P) (file : w.type I ≠ .dir) (allocated : w.type I ≠ .free)
    (nlink : ∀ j, w'.nlink j = if j = I then w.nlink I + 1 else w.nlink j) : Forest w' := by
  have others : ∀ j, j ≠ I → w'.nlink j = w.nlink j := fun j here => by rw [nlink, if_neg here]
  have linked : ∀ D, w.type D = .dir → (w'.LinkedDir D ↔ w.LinkedDir D) := by
    intro D dir
    have here : D ≠ I := by
      rintro rfl
      exact file dir
    rw [World.LinkedDir, World.LinkedDir, more.type, others D here]
  have refers : ∀ j D l, w'.Refers j D l ↔ w.Refers j D l ∨ j = I ∧ D = P ∧ l = k := by
    intro j D l
    by_cases dir : w.type D = .dir
    · exact more.refers tidy ((linked P parent.1).mpr parent) (linked D dir)
    · refine iff_of_false (fun refers => dir ((more.type D).symm.trans refers.1.1)) ?_
      rintro (refers | ⟨_, rfl, _⟩)
      · exact dir refers.1.1
      · exact dir parent.1
  refine forest.relink tidy more.type more.up (fun D other => more.entries ?_) others
    (fun j here D l => ?_) ?_
  · rintro rfl
    exact other parent
  · grind
  · rintro j rfl
    refine ⟨file, allocated, ?_⟩
    rw [card_succ forest.numbered (more.numbered.mpr forest.numbered) (more.new j) fun D l => ?_,
      nlink, if_pos rfl, forest.count j allocated]
    · rfl
    · rw [refers]
      simp only [true_and]

/-- A file loses a link. -/
theorem Forest.unlink (forest : Forest w) (less : OneMore w' w P k I) (tidy : AllTidy w')
    (parent : w.LinkedDir P) (file : w.type I ≠ .dir) (allocated : w.type I ≠ .free)
    (nlink : ∀ j, w'.nlink j = if j = I then w.nlink I - 1 else w.nlink j) : Forest w' := by
  have others : ∀ j, j ≠ I → w'.nlink j = w.nlink j := fun j here => by rw [nlink, if_neg here]
  have linked : ∀ D, w.type D = .dir → (w.LinkedDir D ↔ w'.LinkedDir D) := by
    intro D dir
    have here : D ≠ I := by
      rintro rfl
      exact file dir
    rw [World.LinkedDir, World.LinkedDir, less.type, others D here]
  have refers : ∀ j D l, w.Refers j D l ↔ w'.Refers j D l ∨ j = I ∧ D = P ∧ l = k := by
    intro j D l
    by_cases dir : w.type D = .dir
    · exact less.refers forest.tidy parent (linked D dir)
    · refine iff_of_false (fun refers => dir refers.1.1) ?_
      rintro (refers | ⟨_, rfl, _⟩)
      · exact dir ((less.type D).trans refers.1.1)
      · exact dir parent.1
  refine forest.relink tidy (fun j => (less.type j).symm) (fun D => (less.up D).symm)
    (fun D other => (less.entries ?_).symm) others (fun j here D l => ?_) ?_
  · rintro rfl
    exact other parent
  · grind
  · rintro j rfl
    refine ⟨file, allocated, ?_⟩
    have count := forest.count j allocated
    rw [card_succ (less.numbered.mp forest.numbered) forest.numbered (less.new j) fun D l =>
      ?_] at count
    · rw [nlink, if_pos rfl, count]
      omega
    · rw [refers]
      simp only [true_and]

end Links

section Directories

variable {v w w' : World} {j D P X k l : Nat}

/-- `w` has the directory `X`, without entries of its own, as entry `k` of directory `P`;
in `v` it is not linked. -/
structure Hangs (v w : World) (P k X : Nat) : Prop extends OneMore v w P k X where
  tidy : AllTidy w
  parent : w.LinkedDir P
  apart : X ≠ P
  linked : ∀ D, w.LinkedDir D ↔ v.LinkedDir D ∨ D = X
  unlinked : ¬ v.LinkedDir X
  empty : Empty (w.entries X)
  dotdot : w.up X = some P

theorem Hangs.self (hangs : Hangs v w P k X) : w.LinkedDir X := (hangs.linked X).mpr (Or.inr rfl)

theorem Hangs.refers (hangs : Hangs v w P k X) : w.Refers j D l ↔
    v.Refers j D l ∨ j = X ∧ D = P ∧ l = k ∨ j = P ∧ D = X ∧ l = 1 := by
  by_cases here : D = X
  · subst here
    constructor
    · intro refers
      have behind := refers.pos hangs.tidy
      have front : l = 1 := by
        by_contra other
        obtain ⟨_, de, at_, used, _⟩ := refers
        exact used (hangs.empty.none at_ (by omega))
      subst front
      have same := refers.up.symm.trans hangs.dotdot
      grind
    · rintro (refers | ⟨_, same, _⟩ | ⟨rfl, _, rfl⟩)
      · exact (hangs.unlinked refers.1).elim
      · exact (hangs.apart same).elim
      · exact refers_up hangs.tidy hangs.self hangs.dotdot
  · rw [hangs.toOneMore.refers hangs.tidy hangs.parent ((hangs.linked D).trans (or_iff_left here))]
    simp only [here, false_and, and_false, or_false]

/-- The new references are one to the directory and one to its parent. -/
theorem Hangs.card (hangs : Hangs v w P k X) (numbered : w.Numbered) :
    (w.references j).card = (v.references j).card + if j = X ∨ j = P then 1 else 0 := by
  have before := hangs.toOneMore.numbered.mp numbered
  have apart := hangs.apart
  split
  · rename_i either
    rcases either with rfl | rfl
    · refine card_succ before numbered (hangs.new j) fun D l => ?_
      rw [hangs.refers]
      simp only [true_and, apart, false_and, or_false]
    · refine card_succ (k := 1) before numbered (fun refers => hangs.unlinked refers.1)
        fun D l => ?_
      rw [hangs.refers]
      simp only [true_and, Ne.symm apart, false_and, false_or]
  · rename_i neither
    rw [not_or] at neither
    refine card_same before numbered fun D l => ?_
    rw [hangs.refers]
    simp only [neither.1, neither.2, false_and, or_false]

/-- A directory without links is put into its parent. -/
theorem Forest.attach (forest : Forest w) (hangs : Hangs w w' P k X) (dir : w.type X = .dir)
    (nlink : ∀ j, w'.nlink j = w.nlink j + if j = X ∨ j = P then 1 else 0) : Forest w' := by
  have apart := hangs.apart
  have numbered := hangs.toOneMore.numbered.mpr forest.numbered
  have still : ∀ {D}, w.LinkedDir D → w'.LinkedDir D := fun isLinked =>
    (hangs.linked _).mpr (Or.inl isLinked)
  have parent : w.LinkedDir P := ((hangs.linked P).mp hangs.parent).resolve_right apart.symm
  have zero : w.nlink X = 0 := by
    have count := forest.count X (by rw [dir]; exact Itype.noConfusion)
    have positive : ¬ 0 < w.nlink X := fun positive => hangs.unlinked ⟨dir, positive⟩
    omega
  -- No other entry than the new one is for a directory that was not linked.
  have behind : ∀ j, j ≠ X → ∀ D l, 2 ≤ l → (w'.Refers j D l ↔ w.Refers j D l) := by
    intro j other D l back
    rw [hangs.refers]
    have second : l ≠ 1 := by omega
    simp only [other, second, false_and, and_false, or_false]
  have rooted : ROOTINO ≠ X := fun same => hangs.unlinked (same ▸ forest.root.1)
  refine ⟨numbered, hangs.tidy, fun D isDir other => ?_, fun D isDir => ?_, ?_, fun D l back => ?_,
    fun j isLinked other => ?_, fun j allocated => ?_, fun j free D l => ?_⟩
  · rw [hangs.type] at isDir
    rw [hangs.linked, not_or] at other
    have here : D ≠ P := by
      rintro rfl
      exact other.1 parent
    rw [hangs.entries here]
    exact forest.bare D isDir other.1
  · rw [hangs.type] at isDir
    obtain ⟨Q, up, isLinked⟩ := forest.up D isDir
    exact ⟨Q, (hangs.up D).trans up, still isLinked⟩
  · exact ⟨still forest.root.1, (hangs.up _).trans forest.root.2⟩
  · grind [top]
  · by_cases here : j = X
    · subst here
      refine ⟨P, k, hangs.dotdot, hangs.back, fun D l back => ?_⟩
      have second : l ≠ 1 := by omega
      rw [hangs.refers]
      simp only [forest.no_references zero D l, true_and, second, and_false, false_or, or_false]
    · rw [hangs.linked] at isLinked
      obtain ⟨Q, m, up, back, only⟩ := forest.home j (isLinked.resolve_right here) other
      refine ⟨Q, m, (hangs.up j).trans up, back, fun D l behind' => ?_⟩
      grind
  · rw [hangs.type] at allocated
    grind [Hangs.card, count]
  · rw [hangs.type] at free
    have notX : j ≠ X := by grind
    have notP : j ≠ P := by
      rintro rfl
      rw [parent.1] at free
      cases free
    rw [hangs.refers]
    simp only [forest.unnamed j free D l, notX, notP, false_and, or_false, not_false_eq_true]

/-- A directory without entries of its own has its one link from its parent. -/
theorem Forest.leaf (forest : Forest w) (entry : w.Refers X P k) (back : 2 ≤ k)
    (dir : w.type X = .dir) (empty : Empty (w.entries X)) :
    w.up X = some P ∧ w.nlink X = 1 ∧ 2 ≤ w.nlink P ∧
      ∀ D, w.LinkedDir D → w.up D ≠ some X := by
  have allocated : w.type X ≠ .free := by
    rw [dir]
    exact Itype.noConfusion
  have notRoot : X ≠ ROOTINO := by
    rintro rfl
    exact forest.top P k back entry
  have linked : w.LinkedDir X := by
    refine ⟨dir, ?_⟩
    rw [forest.count X allocated, Int.natCast_pos, Finset.card_pos]
    exact ⟨_, (mem_references forest.numbered).mpr entry⟩
  obtain ⟨Q, m, up, _, only⟩ := forest.home X linked notRoot
  obtain ⟨rfl, rfl⟩ := (only P k back).mp entry
  have childless : ∀ D, w.LinkedDir D → w.up D ≠ some X := by
    intro D isLinked parent
    by_cases root : D = ROOTINO
    · grind [root]
    · obtain ⟨Q, m, isUp, behind, here⟩ := forest.home D isLinked root
      rw [isUp, Option.some.injEq] at parent
      obtain ⟨_, de, at_, used, _⟩ := (here Q m behind).mpr ⟨rfl, rfl⟩
      rw [parent] at at_
      exact used (empty.none at_ behind)
  refine ⟨up, ?_, ?_, childless⟩
  · rw [forest.count X allocated, Finset.card_eq_one.mpr ⟨⟨P, k⟩, ?_⟩]
    · rfl
    ext ⟨D, l⟩
    rw [mem_references forest.numbered, Finset.mem_singleton, Sigma.mk.injEq, heq_eq_eq]
    refine ⟨fun refers => ?_, ?_⟩
    · have behind := refers.pos forest.tidy
      by_cases second : l = 1
      · subst second
        exact (childless D refers.1 refers.up).elim
      · exact (only D l (by omega)).mp refers
    · rintro ⟨rfl, rfl⟩
      exact entry
  · have own : ⟨X, 1⟩ ∈ w.references P := (mem_references forest.numbered).mpr
      (refers_up forest.tidy linked up)
    have two : 1 < (w.references P).card := by
      by_cases root : P = ROOTINO
      · have self : ⟨ROOTINO, 1⟩ ∈ w.references P := by
          grind [mem_references, numbered, refers_up, tidy, root]
        refine Finset.one_lt_card.mpr ⟨_, own, _, self, fun same => notRoot ?_⟩
        exact congrArg Sigma.fst same
      · obtain ⟨Q, m, _, behind, only⟩ := forest.home P entry.1 root
        have above : ⟨Q, m⟩ ∈ w.references P := (mem_references forest.numbered).mpr
          ((only Q m behind).mpr ⟨rfl, rfl⟩)
        refine Finset.one_lt_card.mpr ⟨_, own, _, above, fun same => ?_⟩
        grind
    have count := forest.count P (LinkedDir.allocated entry.1)
    omega

/-- A directory without entries of its own is taken out of its parent. -/
theorem Forest.detach (forest : Forest w) (less : OneMore w' w P k X) (tidy : AllTidy w')
    (parent : w.LinkedDir P) (apart : X ≠ P) (dir : w.type X = .dir) (empty : Empty (w.entries X))
    (alone : ∀ U, w.type U = .dir → ¬ w.LinkedDir U → w.up U ≠ some X)
    (nlink : ∀ j, w'.nlink j = w.nlink j - if j = X ∨ j = P then 1 else 0) : Forest w' := by
  obtain ⟨de, at_, used, rfl⟩ := less.after
  have back := less.back
  obtain ⟨up, one, two, childless⟩ :=
    forest.leaf (refers_of_entry forest.tidy parent at_ (by omega) used) back dir empty
  have others : ∀ D, D ≠ de.inum → (w'.LinkedDir D ↔ w.LinkedDir D) := by
    intro D other
    rw [World.LinkedDir, World.LinkedDir, less.type, nlink]
    by_cases here : D = P
    · rw [if_pos (Or.inr here), here]
      refine and_congr_right fun _ => ?_
      omega
    · rw [if_neg (not_or.mpr ⟨other, here⟩), sub_zero]
  have unlinked : ¬ w'.LinkedDir de.inum := by
    rintro ⟨_, positive⟩
    grind
  have hangs : Hangs w' w P k de.inum := by
    refine ⟨less, forest.tidy, parent, apart, fun D => ?_, unlinked, empty, up⟩
    by_cases here : D = de.inum
    · rw [here]
      exact iff_of_true ⟨dir, by omega⟩ (Or.inr rfl)
    · grind
  have numbered := less.numbered.mp forest.numbered
  have behind : ∀ j, j ≠ de.inum → ∀ D l, 2 ≤ l → (w'.Refers j D l ↔ w.Refers j D l) := by
    intro j other D l back
    rw [hangs.refers]
    have second : l ≠ 1 := by omega
    simp only [other, second, false_and, and_false, or_false]
  have rooted : ROOTINO ≠ de.inum := by
    intro same
    refine childless _ forest.root.1 ?_
    rw [← same]
    exact forest.root.2
  refine ⟨numbered, tidy, fun D isDir other => ?_, fun D isDir => ?_, ?_, fun D l back => ?_,
    fun j isLinked other => ?_, fun j allocated => ?_, fun j free D l refers => ?_⟩
  · rw [← less.type] at isDir
    by_cases here : D = de.inum
    · rw [here, ← less.entries apart]
      exact empty
    · rw [others D here] at other
      rw [← less.entries (fun same : D = P => other (same ▸ parent))]
      exact forest.bare D isDir other
  · rw [← less.type] at isDir
    obtain ⟨Q, isUp, isLinked⟩ := forest.up D isDir
    refine ⟨Q, (less.up D).symm.trans isUp, (others Q ?_).mpr isLinked⟩
    rintro rfl
    by_cases linkedD : w.LinkedDir D
    · exact childless D linkedD isUp
    · exact alone D isDir linkedD isUp
  · rw [others _ rooted, ← less.up]
    exact forest.root
  · grind [top]
  · have here : j ≠ de.inum := by
      rintro rfl
      exact unlinked isLinked
    obtain ⟨Q, m, isUp, back, only⟩ := forest.home j ((others j here).mp isLinked) other
    refine ⟨Q, m, (less.up j).symm.trans isUp, back, fun D l back => ?_⟩
    grind
  · rw [← less.type] at allocated
    have count := forest.count j allocated
    grind [Hangs.card, numbered]
  · grind [OneMore.type, unnamed, Hangs.refers]

end Directories

end Xv6.Fs
