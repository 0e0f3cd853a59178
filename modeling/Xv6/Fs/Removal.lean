import Xv6.Fs.Effect

/- Every directory begins with "." and ".." and has no name twice. sys_unlink then clears
the entry of its name, if dirlookup does not find the name in the cache: with a cached
name it gets no offset, and clears the first entry. -/
namespace Xv6.Fs

open Namecache CString

section Tidy

/-- The directory `D` begins with "." and "..", and has no name twice. -/
structure Tidy (D : Nat) (ents : List Dirent) : Prop where
  dot : ∃ de, ents[0]? = some de ∧ de.Is [46] ∧ de.inum = D
  dotdot : ∃ de, ents[1]? = some de ∧ de.Is [46, 46]
  names : ∀ (j k : Nat) (d e : Dirent), ents[j]? = some d → ents[k]? = some e → d.inum ≠ 0 →
    e.Is d.name → j = k

variable {D P X I k : Nat} {ents : List Dirent} {name : List UInt8} {de : Dirent}

/-- The name of an entry in use in the first two slots. -/
theorem Tidy.front (tidy : Tidy D ents) (front : k < 2) (at_ : ents[k]? = some de) :
    de.inum ≠ 0 ∧ Dots de.name := by
  obtain ⟨first, here, is, _⟩ := tidy.dot
  obtain ⟨second, there, isTwo⟩ := tidy.dotdot
  have cases : k = 0 ∨ k = 1 := by omega
  rcases cases with rfl | rfl
  · rw [here, Option.some.injEq] at at_
    subst at_
    exact ⟨is.1, Or.inl ((namecmp_eq_zero _ _).mpr is.2)⟩
  · rw [there, Option.some.injEq] at at_
    subst at_
    exact ⟨isTwo.1, Or.inr ((namecmp_eq_zero _ _).mpr isTwo.2)⟩

/-- The other names stand behind. -/
theorem Tidy.back (tidy : Tidy D ents) (at_ : ents[k]? = some de) (is : de.Is name)
    (other : ¬ Dots name) : 2 ≤ k := by
  by_contra front
  refine other ?_
  have dots := (tidy.front (by omega) at_).2
  rw [Dots, namecmp_eq_zero, namecmp_eq_zero, is.2] at dots
  rwa [Dots, namecmp_eq_zero, namecmp_eq_zero]

theorem Tidy.two_le_firstFree (tidy : Tidy D ents) : 2 ≤ firstFree ents := by
  obtain ⟨_, here, is, _⟩ := tidy.dot
  obtain ⟨_, there, isTwo⟩ := tidy.dotdot
  have first := ne_firstFree here is.1
  have second := ne_firstFree there isTwo.1
  omega

/-- Another entry behind the first two, with a new name or not in use. -/
theorem Tidy.put (tidy : Tidy D ents) (back : 2 ≤ k) (fits : k ≤ ents.length)
    (new : de.inum ≠ 0 → ∀ e ∈ ents, ¬ e.Is de.name) : Tidy D (putEntry ents k de) := by
  refine ⟨?_, ?_, OneEach.put tidy.names fits new⟩
  · rw [getElem?_putEntry _ fits, if_neg (by omega)]
    exact tidy.dot
  · rw [getElem?_putEntry _ fits, if_neg (by omega)]
    exact tidy.dotdot

theorem Tidy.add (tidy : Tidy D ents) (absent : scan name ents = none) :
    Tidy D (putEntry ents (firstFree ents) (newEntry name I)) :=
  tidy.put tidy.two_le_firstFree (firstFree_le ents) fun _ => newEntry_new absent

theorem Tidy.clear (tidy : Tidy D ents) (back : 2 ≤ k) (fits : k ≤ ents.length) :
    Tidy D (putEntry ents k Dirent.zero) :=
  tidy.put back fits fun used => (used rfl).elim

/-- The entries that `create` makes in a new directory. -/
def dotEntries (X P : Nat) : List Dirent := [newEntry [46] X, newEntry [46, 46] P]

theorem tidy_dotEntries (positive : X ≠ 0) (parent : P ≠ 0) : Tidy X (dotEntries X P) := by
  refine ⟨⟨_, rfl, newEntry_is positive, rfl⟩, ⟨_, rfl, newEntry_is parent⟩,
    fun j k d e here there _ same => ?_⟩
  have apart : fieldString DIRSIZ (strncpy [46] DIRSIZ) ≠ fieldString DIRSIZ
    (strncpy [46, 46] DIRSIZ) := by decide
  match j, k, here, there with
  | 0, 0, _, _ => rfl
  | 1, 1, _, _ => rfl
  | 0, 1, here, there =>
    cases here
    cases there
    exact (apart same.2.symm).elim
  | 1, 0, here, there =>
    cases here
    cases there
    exact (apart same.2).elim
  | _ + 2, _, here, _ => cases here
  | _, _ + 2, _, there => cases there

end Tidy

section Entries

variable {used : Nat → Prop} {w w' : World} {P X I k : Nat} {name : List UInt8} {new : Dinode}

theorem Begins.entries (begins : Begins new w P X w') (positive : X ≠ 0) (j : Nat) : w'.entries j =
    if j = X then (if new.type = .dir then dotEntries X P else []) else w.entries j := by
  obtain ⟨din, fresh, begins⟩ := begins
  split at begins
  · obtain ⟨w1, dot, dotdot⟩ := begins
    have none : ((w.reset X din).change P .link).entries X = [] := Function.update_self _ _ _
    have one : w1.entries X = [newEntry [46] X] := by
      rw [dot.entries, if_pos rfl, none]
      rfl
    have first : firstFree [newEntry [46] X] = 1 := by
      have free : ¬ (newEntry [46] X).inum = 0 := positive
      rw [firstFree, List.findIdx_singleton, if_neg (by simpa using free)]
    rw [dotdot.entries]
    split
    · rw [one, first]
      rfl
    · rename_i other
      rw [dot.entries, if_neg other]
      exact Function.update_of_ne other _ _
  · rename_i other
    rw [begins, if_neg other]
    exact Function.update_apply _ _ _ _

/-- A new directory is counted as a link of its parent. -/
theorem Begins.nlink_other (begins : Begins new w P X w') {j : Nat} (apart : j ≠ X) : w'.nlink j =
    if j = P ∧ new.type = .dir then toShort (w.nlink P + 1) else w.nlink j := by
  obtain ⟨din, fresh, begins⟩ := begins
  split at begins
  · rename_i dir
    obtain ⟨w1, dot, dotdot⟩ := begins
    rw [dotdot.nlink, dot.nlink, nlink_change]
    by_cases here : j = P
    · rw [if_pos here, if_pos ⟨here, dir⟩]
      have before := nlink_reset w X j din
      rw [if_neg apart, here] at before
      rw [← before]
      rfl
    · rw [if_neg here, if_neg fun both => here both.1, nlink_reset, if_neg apart]
  · grind [nlink_reset]

end Entries

section Steps

/-- All directories are tidy. -/
def AllTidy (w : World) : Prop := ∀ D, w.type D = .dir → Tidy D (w.entries D)

variable {used : Nat → Prop} {w w' : World} {P X I k : Nat} {name : List UInt8} {new : Dinode}

theorem AllTidy.congr (tidy : AllTidy w) (type : ∀ j, w'.type j = w.type j)
    (entries : ∀ j, w'.entries j = w.entries j) : AllTidy w' := by
  intro D dir
  rw [type] at dir
  rw [entries]
  exact tidy D dir

theorem AllTidy.change (tidy : AllTidy w) (X : Nat) (c : Change) : AllTidy (w.change X c) :=
  tidy.congr (fun j => type_change w X j c) fun _ => rfl

theorem AllTidy.drop (tidy : AllTidy w) (drop : Drop used w X w') : AllTidy w' := by
  rcases drop with rfl | ⟨_, _, _, addrs, rfl⟩
  · exact tidy
  · intro D dir
    rw [type_reset] at dir
    split at dir
    · cases dir
    · rename_i other
      change Tidy D (Function.update w.entries X [] D)
      rw [Function.update_of_ne other]
      exact tidy D dir

theorem AllTidy.drops (tidy : AllTidy w) (drops : Drops w w') : AllTidy w' := by
  induction drops with
  | refl => exact tidy
  | step drop _ ih => exact ih (tidy.drop drop)

theorem AllTidy.linked (tidy : AllTidy w) (linked : Linked w P name I w') : AllTidy w' := by
  intro D dir
  rw [linked.type] at dir
  rw [linked.entries]
  split
  · rename_i here
    subst here
    exact (tidy D dir).add linked.absent
  · exact tidy D dir

theorem AllTidy.begins (tidy : AllTidy w) (begins : Begins new w P X w') (positive : X ≠ 0)
    (parent : P ≠ 0) :
    AllTidy w' := by
  intro D dir
  rw [begins.type] at dir
  rw [begins.entries positive]
  split
  · grind [tidy_dotEntries]
  · rename_i other
    rw [if_neg other] at dir
    exact tidy D dir

/-- An entry behind the first two of a directory is cleared. -/
theorem AllTidy.clear (tidy : AllTidy w) (back : 2 ≤ k) (inside : k ≤ (w.entries P).length)
    (type : ∀ j, w'.type j = w.type j)
    (entries : ∀ j, w'.entries j =
      if j = P then putEntry (w.entries P) k Dirent.zero else w.entries j) :
    AllTidy w' := by
  intro D dir
  rw [type] at dir
  rw [entries]
  split
  · rename_i here
    subst here
    exact (tidy D dir).clear back inside
  · exact tidy D dir

theorem AllTidy.removes (tidy : AllTidy w) (removes : Removes used w P k I w') (back : 2 ≤ k) :
    AllTidy w' := by
  obtain ⟨size, addrs, w1, w2, cleared, dropParent, drop⟩ := removes.steps
  have put : AllTidy ((((w.invalidate I).invalidate P).put P k Dirent.zero).resize P size addrs) :=
    by
    refine tidy.clear back removes.inside (fun j => ?_) fun j => Function.update_apply _ _ _ _
    rw [type_resize]
    rfl
  have first : AllTidy w1 := by grind [change]
  exact ((first.drop dropParent).change I .unlink).drop drop

end Steps

section Calls

variable {s s' : State} {p : Fin NPROC} {call : Call} {w' : World} {r : Int} {path : List UInt8}

/-- A directory with entries of its own, which `sys_unlink` refuses. -/
def Full (w : World) (I : Nat) : Prop := w.type I = .dir ∧ ¬ Empty (w.entries I)

instance (w : World) (I : Nat) :
    Decidable (Full w I) := inferInstanceAs (Decidable (_ ∧ ¬ ∀ _ ∈ _, _))

/-- The name is not in the cache, unless as one of a directory with entries. -/
def NotCached (w : World) (P : Nat) (name : List UInt8) : Prop :=
  namecacheLookup w.cache ROOTDEV P name = 0 ∨ Full w (namecacheLookup w.cache ROOTDEV P name)

instance (w : World) (P : Nat) (name : List UInt8) : Decidable (NotCached w P name) :=
  inferInstanceAs (Decidable (_ ∨ _))

/-- `sys_unlink` does not find the name that it removes in the cache. -/
def Call.Misses (s : State) (p : Fin NPROC) : Call → Prop
  | .sysUnlink path => ∀ t ∈ (Call.sysUnlink path).target s p, ¬ Dots t.name →
      NotCached t.world t.dir t.name
  | _ => True

instance (s : State) (p : Fin NPROC) (call : Call) : Decidable (call.Misses s p) := by
  unfold Call.Misses
  split <;> infer_instance

/-- The name that is removed is found in the directory then. -/
theorem Removes.scanned {used : Nat → Prop} {w w1 w' : World} {P I k : Nat} {name : List UInt8}
    (removes : Removes used w1 P k I w') (lookup : Lookup w P name w1 (some (I, k)))
    (misses : NotCached w P name) :
    w1 = w.fill P name I ∧ scan name (w.entries P) = some (k, I) := by
  rcases lookup.of_some rfl with ⟨same, hit, nonzero, _⟩ | ⟨filled, _, there⟩
  · rcases misses with miss | full
    · exact (nonzero (hit.symm.trans miss)).elim
    · rw [hit, ← same] at full
      exact (full.2 (removes.empty full.1)).elim
  · exact ⟨filled, there⟩

theorem Effect.tidy (effect : Effect s p call w' r) (base : Base s) (tidy : AllTidy s.world)
    (misses : call.Misses s p) : AllTidy w' := by
  have walked : ∀ {w w1 : World}, AllTidy w → Filled (call.finds s p) w w1 → AllTidy w1 := by
    intro w w1 tidy fills
    obtain ⟨cache, rfl⟩ := fills.recached
    exact tidy
  cases effect with
  | looked fills => exact walked tidy fills
  | made aim reach kind makes fills dir lookup vacant begins links drop =>
    rename_i w1 w2 w3 type P X name
    have positive : X ≠ 0 := Nat.pos_iff_ne_zero.mp (vacant_spec vacant).1
    have before := walked tidy fills
    have parent : P ≠ 0 := by
      obtain ⟨cache, rfl⟩ := fills.recached
      refine (base.numbered P fun free => ?_).1
      grind [State.world, World.type]
    exact ((before.begins begins positive parent).linked links).drop drop
  | linked isLink source aim reach fills other allocated more links drop =>
    exact ((walked ((walked tidy fills).change _ .link) more).linked links).drop drop
  | undone fills other allocated more drop =>
    exact ((walked ((walked tidy fills).change _ .link) more).change _ .unlink).drop drop
  | removed isUnlink aim reach fills dir other lookup removes =>
    rename_i w1 w2 P I k name
    obtain ⟨path, rfl⟩ := isUnlink
    have before := walked tidy fills
    obtain ⟨rfl, there⟩ := removes.scanned lookup (misses _ aim other)
    obtain ⟨de, at_, is, _⟩ := scan_eq_some.mp there
    have filled : AllTidy (w1.fill P name I) := before
    exact filled.removes removes ((before P dir).back at_ is other)
  | dropped fills drops => exact (walked tidy fills).drops drops
  | wrote writes =>
    induction writes with
    | refl => exact tidy
    | step _ _ wrote ih =>
      rw [wrote]
      exact ih.congr (fun j => by rw [type_resize, type_store]) fun _ => rfl
  | chmod isChmod allowed fills eq | chown isChown allowed fills eq =>
    rw [eq]
    exact (walked tidy fills).change _ _

/-- The parent of the removed directory is not freed: it has other links, or it is in use. -/
def ParentStays (s : State) (p : Fin NPROC) (path : List UInt8) : Prop :=
  ∀ t ∈ (Call.sysUnlink path).target s p, ∀ found ∈ (t.world.lookup t.dir t.name).2,
    s.world.type found.1 = .dir → s.world.nlink t.dir = 1 → s.outside.Used t.dir

instance (s : State) (p : Fin NPROC) (path : List UInt8) : Decidable (ParentStays s p path) :=
  inferInstanceAs (Decidable (∀ _ ∈ _, ∀ _ ∈ _, _ → _ → ∃ _, _))

end Calls

section Image

/-- The names in the root directory of an image. -/
def rootNames (files : List Mkfs.Source) : List (List UInt8) :=
  [46] :: [46, 46] :: files.map fun file => Mkfs.targetName file.name

/-- The names of the files of an image differ from each other, and from "." and "..". -/
def DistinctNames (files : List Mkfs.Source) : Prop :=
  (rootNames files).Pairwise fun a b => namecmp a b ≠ 0

instance (files : List Mkfs.Source) :
    Decidable (DistinctNames files) := inferInstanceAs (Decidable (List.Pairwise _ _))

variable {im : Mkfs.Image} {files : List Mkfs.Source} {devsw : Int → Option Device}

theorem names_fileEntries (inum : Nat) (files : List Mkfs.Source) :
    (Mkfs.fileEntries inum files).map Dirent.name =
    files.map fun file => strncpy (Mkfs.targetName file.name) DIRSIZ := by
  induction files generalizing inum with
  | nil => rfl
  | cons file rest ih => rw [Mkfs.fileEntries, List.map_cons, List.map_cons, ih, Mkfs.fileEntry]

/-- No name stands twice in a list where no later entry has the name of an earlier one. -/
theorem names_of_pairwise {ents : List Dirent}
    (apart : ents.Pairwise fun d e => d.inum ≠ 0 → ¬ e.Is d.name) (j k : Nat) (d e : Dirent)
    (here : ents[j]? = some d) (there : ents[k]? = some e) (used : d.inum ≠ 0)
    (same : e.Is d.name) : j = k := by
  obtain ⟨inside, rfl⟩ := List.getElem?_eq_some_iff.mp here
  obtain ⟨inside', rfl⟩ := List.getElem?_eq_some_iff.mp there
  rw [List.pairwise_iff_getElem] at apart
  rcases Nat.lt_trichotomy j k with before | equal | behind
  · exact (apart j k inside inside' before used same).elim
  · exact equal
  · exact (apart k j inside' inside behind same.1 ⟨used, same.2.symm⟩).elim

theorem tidy_boot (made : Mkfs.Made im files) (distinct : DistinctNames files) :
    AllTidy (im.boot devsw).world := by
  intro D dir
  have root : D = ROOTINO := made_dir made dir
  subst root
  obtain ⟨free, entries⟩ := @boot_root im files devsw made
  have names : (dotEntries ROOTINO ROOTINO ++ Mkfs.fileEntries 2 files).map Dirent.name =
      (rootNames files).map (strncpy · DIRSIZ) := by
    rw [List.map_append, names_fileEntries, rootNames, List.map_cons, List.map_cons, List.map_map]
    rfl
  have apart : (dotEntries ROOTINO ROOTINO ++ Mkfs.fileEntries 2 files).Pairwise
      fun d e => fieldString DIRSIZ e.name ≠ fieldString DIRSIZ d.name := by
    have mapped : ((dotEntries ROOTINO ROOTINO ++ Mkfs.fileEntries 2 files).map
        Dirent.name).Pairwise fun a b => fieldString DIRSIZ b ≠ fieldString DIRSIZ a := by
      rw [names, List.pairwise_map]
      refine List.Pairwise.imp (fun {a b} differ same => differ ?_) distinct
      rw [namecmp_eq_zero]
      rwa [fieldString_strncpy, fieldString_strncpy, eq_comm] at same
    exact List.pairwise_map.mp mapped
  have whole : ((dotEntries ROOTINO ROOTINO ++ Mkfs.fileEntries 2 files) ++
      List.replicate free Dirent.zero).Pairwise fun d e => d.inum ≠ 0 → ¬ e.Is d.name := by
    refine List.pairwise_append.mpr ⟨apart.imp fun differ _ same => differ same.2, ?_,
      fun d _ e zero _ same => ?_⟩
    · exact List.pairwise_replicate.mpr (Or.inr fun used => (used rfl).elim)
    · rw [List.eq_of_mem_replicate zero] at same
      exact same.1 rfl
  rw [entries]
  exact ⟨⟨_, rfl, newEntry_is (by decide), rfl⟩, ⟨_, rfl, newEntry_is (by decide)⟩,
    names_of_pairwise whole⟩

end Image

section Runs

/-- A name of an invalidated directory is not cached. -/
theorem lookup_invalidate (c : Cache) (P : Nat) (name : List UInt8) :
    namecacheLookup (namecacheInvalidate c ROOTDEV P) ROOTDEV P name = 0 := by
  by_contra hit
  have all : c.All fun _ => True := fun _ _ => trivial
  obtain ⟨e, good, hits, _⟩ := (all.invalidate ROOTDEV P).lookup hit
  obtain ⟨_, dev, parent, _⟩ := (Entry.hits_iff e).mp hits
  exact (good.2 dev).2 parent

/-- A parent that is not freed has one entry less. -/
theorem Removes.parent {used : Nat → Prop} {w w' : World} {P k I : Nat}
    (removes : Removes used w P k I w') (none : NoOrphans used w)
    (short : toShort (w.nlink P) = w.nlink P) (stays : w.type I = .dir → w.nlink P = 1 → used P) :
    w'.entries P = putEntry (w.entries P) k Dirent.zero ∧
      w'.cache = ((w.invalidate I).invalidate P).cache := by
  obtain ⟨size, addrs, w1, w2, cleared, dropParent, drop⟩ := removes.steps
  have used : w1.type P ≠ .free → w1.nlink P = 0 → used P := by
    rw [cleared]
    split
    · rename_i dir
      rw [type_change, type_resize, nlink_change, if_pos rfl]
      change _ → toShort ((((w.invalidate I).invalidate P).put P k Dirent.zero |>.resize P size
        addrs).nlink P - 1) = 0 → _
      rw [nlink_resize]
      change _ → toShort (w.nlink P - 1) = 0 → _
      intro _ zero
      refine stays dir ?_
      simp only [toShort, Int.bmod_def] at short zero
      omega
    · rw [type_resize, nlink_resize]
      exact none P
  have first : w1.entries P = putEntry (w.entries P) k Dirent.zero ∧
      w1.cache = ((w.invalidate I).invalidate P).cache := by
    rw [cleared]
    split <;> exact ⟨Function.update_self _ _ _, rfl⟩
  have second : w2 = w1 := by
    rcases dropParent with same | ⟨allocated, zero, unused, _⟩
    · exact same
    · exact (unused (Or.inl (used allocated zero))).elim
  subst second
  rcases drop with rfl | ⟨_, _, _, _, rfl⟩
  · exact first
  · refine ⟨Eq.trans ?_ first.1, first.2⟩
    exact Function.update_of_ne removes.apart.symm _ _

variable {im : Mkfs.Image} {files : List Mkfs.Source} {devsw : Int → Option Device}
  {calls : List (Fin NPROC × Call)} {s s' : State} {p : Fin NPROC} {path : List UInt8}

/-- After any run on an image of mkfs in which no unlink finds its name in the cache,
such an unlink that succeeds clears the entry of its name and no other one; the name is not
found any more, and what was removed was not a directory with entries. -/
theorem unlink_removes_entry (made : Mkfs.mkfs files = some im) (few : files.length < NINODES - 1)
    (room : im.freeblock ≤ FSSIZE) (distinct : DistinctNames files)
    (meets : SystemMeets (fun s e => e.2.Misses s e.1) im devsw calls)
    (reached : runSystem im devsw calls = some s) (misses : (Call.sysUnlink path).Misses s p)
    (stays : ParentStays s p path) (taken : callStep s (p, .sysUnlink path) = .ok (0, s')) :
    ∃ t k de, (Call.sysUnlink path).target s p = some t ∧ (s.world.entries t.dir)[k]? = some de ∧
      de.Is t.name ∧
      (∀ j : Nat, (s'.world.entries t.dir)[j]? =
        if j = k then some Dirent.zero else (s.world.entries t.dir)[j]?) ∧
      (s'.world.lookup t.dir t.name).2 = none ∧
      (s.world.type de.inum = .dir → ∀ e ∈ s.world.entries de.inum, e.inum ≠ 0 → Dots e.name) := by
  have image := Mkfs.mkfs_made made few room
  have holds : Base s ∧ ShortLinks s.world ∧ AllTidy s.world := by
    refine @run_system im files devsw (fun s e => e.2.Misses s e.1)
      (fun s => ShortLinks s.world ∧ AllTidy s.world) image (fun s _ world => ?_)
      (fun s p call r s' base both misses taken => ?_) calls s meets reached
    · rw [world]
      exact ⟨shortLinks_boot image, tidy_boot image distinct⟩
    · have effect := callStep_effect base taken
      exact ⟨effect.stable stable_shortLinks base.numbered both.1, effect.tidy base both.2 misses⟩
  obtain ⟨base, short, tidy⟩ := holds
  have none := base.noOrphans
  generalize result : (0 : Int) = r at taken
  have does : Unlinks s.outside.Used s.world (s.outside.start p path) (elements path) s'.world r :=
    (callStep_base base taken).2
  cases does with
  | lost | dots | missing | notEmpty => cases result
  | removed walk dir other lookup removes =>
    rename_i w1 w2 P I k name
    have target : (Call.sysUnlink path).target s p = some ⟨w1, P, name⟩ := walk.target none
    have found := lookup.eq
    obtain ⟨rfl, there⟩ := removes.scanned lookup (misses _ target other)
    obtain ⟨cache, rfl⟩ := (walk.eq_walk none).2
    change s.world.type P = .dir at dir
    obtain ⟨de, at_, is, rfl, _⟩ := scan_eq_some.mp there
    have kept : s.world.type de.inum = .dir → s.world.nlink P = 1 → s.outside.Used P :=
      stays _ target (de.inum, k) (by rw [found]; exact rfl)
    obtain ⟨entries, caches⟩ := removes.parent none
      (short P (by rw [dir]; exact Itype.noConfusion)) kept
    have after : ∀ j : Nat, (s'.world.entries P)[j]? =
        if j = k then some Dirent.zero else (s.world.entries P)[j]? := by
      intro j
      rw [entries]
      exact getElem?_putEntry _ removes.inside j
    refine ⟨_, k, de, target, at_, is, after, ?_, fun isDir e member inUse => ?_⟩
    · have absent : scan name (s'.world.entries P) = Option.none := by
        refine scan_eq_none.mpr fun e member same => ?_
        obtain ⟨j, here⟩ := List.mem_iff_getElem?.mp member
        rw [after] at here
        split at here
        · cases here
          exact same.1 rfl
        · rename_i differ
          exact differ ((tidy P dir).names k j de e at_ here is.1
            ⟨same.1, same.2.trans is.2.symm⟩).symm
      have miss : namecacheLookup s'.world.cache ROOTDEV P name = 0 := by
        rw [caches]
        exact lookup_invalidate _ _ _
      rw [(Lookup.missing miss absent).eq]
    · obtain ⟨j, here⟩ := List.mem_iff_getElem?.mp member
      by_cases front : j < 2
      · exact ((tidy _ isDir).front front here).2
      · refine (inUse (removes.empty isDir e (List.mem_of_getElem? ?_ (i := j - 2)))).elim
        rw [List.getElem?_drop, show 2 + (j - 2) = j by omega]
        exact here

/-- An image with one empty file. -/
def oneSource : List Mkfs.Source := [⟨[120], []⟩]

theorem unlink_removes_entry_oneSource : ∃ im s s', Mkfs.mkfs oneSource = some im ∧
    runSystem im (fun _ => none) [] = some s ∧ callStep s (0, .sysUnlink [47, 120]) = .ok (0, s') ∧
    ∃ t, (Call.sysUnlink [47, 120]).target s 0 = some t ∧ (s'.world.lookup t.dir t.name).2 =
      none := by
  obtain ⟨im, made, room, s, ran, misses, stays, removes⟩ : Mkfs.Yields oneSource fun im =>
      ∃ s ∈ runSystem im (fun _ => none) [], (Call.sysUnlink [47, 120]).Misses s 0 ∧
        ParentStays s 0 [47, 120] ∧
        (callStep s (0, .sysUnlink [47, 120])).toOption.map Prod.fst = some 0 := by decide +kernel
  obtain ⟨⟨r, s'⟩, taken, rfl⟩ := Option.map_eq_some_iff.mp removes
  rw [Outcome.toOption_eq_some] at taken
  have meets : SystemMeets (fun s e => e.2.Misses s e.1) im (fun _ => none) [] := fun _ _ => trivial
  obtain ⟨t, k, de, target, _, _, _, gone, _⟩ :=
    unlink_removes_entry made (by decide) room (by decide) meets ran misses stays taken
  exact ⟨im, s, s', made, ran, taken, t, target, gone⟩

/-- `unlink("/a")` after `open("/a", O_CREATE)`: the name is cached, so that "." is cleared
and the name stays. -/
theorem unlink_clears_dot : ∃ im s s', Mkfs.mkfs [] = some im ∧
    runSystem im (fun _ => none) [(0, .sysOpen [47, 97] 0x202)] = some s ∧
    callStep s (0, .sysUnlink [47, 97]) = .ok (0, s') ∧
    scan [46] (s.world.entries ROOTINO) = some (0, ROOTINO) ∧
      scan [46] (s'.world.entries ROOTINO) = none ∧
    scan [97] (s'.world.entries ROOTINO) = some (2, 2) := by
  obtain ⟨im, made, -, s, ran, before, ⟨r, s'⟩, taken, rfl, after, found⟩ : Mkfs.Yields [] fun im =>
      ∃ s ∈ runSystem im (fun _ => none) [(0, .sysOpen [47, 97] 0x202)],
        scan [46] (s.world.entries ROOTINO) = some (0, ROOTINO) ∧
        ∃ next ∈ (callStep s (0, .sysUnlink [47, 97])).toOption, next.1 = 0 ∧
          scan [46] (next.2.world.entries ROOTINO) = none ∧
          scan [97] (next.2.world.entries ROOTINO) = some (2, 2) := by decide +kernel
  exact ⟨im, s, s', made, ran, Outcome.toOption_eq_some.mp taken, before, after, found⟩

end Runs

end Xv6.Fs
