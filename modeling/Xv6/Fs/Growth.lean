import Xv6.Fs.Forest

/- What create, sys_link, sys_unlink and iput do to the tree of directories and to the link
counts, and what the name cache keeps of it. -/
namespace Xv6.Fs

open Namecache CString

section Steps

variable {used : Nat → Prop} {w w' : World} {P X I k : Nat} {name : List UInt8}

theorem Forest.recached (forest : Forest w) (recached : Recached w w') : Forest w' := by
  obtain ⟨cache, rfl⟩ := recached
  exact forest.congr (fun _ => rfl) (fun _ => rfl) fun _ => rfl

theorem Forest.drop (forest : Forest w) (drop : Drop used w X w') : Forest w' := by
  rcases drop with rfl | ⟨allocated, zero, _, addrs, rfl⟩
  · exact forest
  · have unlinked : ¬ w.LinkedDir X := fun linked => by
      have := linked.2
      omega
    have freed : (w.reset X ((w.inode X).freed addrs)).type X = .free := by
      rw [type_reset, if_pos rfl]
      rfl
    refine forest.other unlinked (forest.no_references zero) (fun j here => ?_) (fun j here => ?_)
      (fun j here => Function.update_of_ne here _ _) (fun used => (used freed).elim)
      (forest.numbered X allocated) fun dir => ?_
    · rw [type_reset, if_neg here]
    · rw [nlink_reset, if_neg here]
    · rw [freed] at dir
      cases dir

theorem Linked.oneMore (linked : Linked w P name I w') (tidy : AllTidy w) (nonzero : I ≠ 0) :
    OneMore w w' P (firstFree (w.entries P)) I := by
  have fits := firstFree_le (w.entries P)
  refine ⟨linked.type, (tidy P linked.dir).two_le_firstFree, fun D l other => ?_, fun de =>
    inum_firstFree, newEntry name I, ?_, nonzero, rfl⟩
  · rw [linked.entries]
    grind [getElem?_putEntry]
  · rw [linked.entries, if_pos rfl, getElem?_putEntry _ fits, if_pos rfl]

theorem toShort_succ {x : Int} (short : toShort x = x) (room : x ≠ 32767) :
    toShort (x + 1) = x + 1 := by
  simp only [toShort, Int.bmod_def] at *
  omega

theorem toShort_pred {x : Int} (short : toShort x = x) (positive : 0 < x) :
    toShort (x - 1) = x - 1 := by
  simp only [toShort, Int.bmod_def] at *
  omega

theorem OneMore.congr {v : World} (more : OneMore w w' P k I) (type : ∀ j, v.type j = w.type j)
    (entries : ∀ j, v.entries j = w.entries j) : OneMore v w' P k I := by
  refine ⟨fun j => (more.type j).trans (type j).symm, more.back, fun D l other => ?_, ?_,
    more.after⟩
  · rw [entries]
    exact more.other D l other
  · rw [entries]
    exact more.before

/-- The world with the new inode of `create`, before it has links. -/
def World.with (w : World) (type : Itype) (P X : Nat) : World :=
  { w with
    inode := Function.update w.inode X { Dinode.zero with type := type }
    entries := Function.update w.entries X (if type = .dir then dotEntries X P else []) }

variable {new : Dinode} {w1 : World}

theorem type_with (type : Itype) (j : Nat) :
    (w.with type P X).type j = if j = X then type else w.type j := by
  by_cases here : j = X
  · subst here
    simp [World.type, World.with]
  · simp [World.type, World.with, here]

theorem nlink_with (type : Itype) (j : Nat) :
    (w.with type P X).nlink j = if j = X then 0 else w.nlink j := by
  by_cases here : j = X
  · subst here
    simp [World.nlink, World.with, Dinode.zero]
  · simp [World.nlink, World.with, here]

theorem Forest.with (forest : Forest w) (type : Itype) (free : w.type X = .free)
    (small : X ≠ 0 ∧ X < NINODES) (parent : w.LinkedDir P) : Forest (w.with type P X) := by
  have unlinked : ¬ w.LinkedDir X := fun linked => LinkedDir.allocated linked free
  refine forest.other unlinked (forest.unnamed X free) (fun j here => ?_) (fun j here => ?_)
    (fun j here => Function.update_of_ne here _ _) (fun _ => ?_) small fun dir => ?_
  · rw [type_with, if_neg here]
  · rw [nlink_with, if_neg here]
  · rw [nlink_with, if_pos rfl]
  · rw [type_with, if_pos rfl] at dir
    have entries : (w.with type P X).entries X = dotEntries X P := by
      change Function.update _ _ _ _ = _
      rw [Function.update_self, if_pos dir]
    rw [World.up, entries]
    refine ⟨tidy_dotEntries small.1 (forest.numbered P (LinkedDir.allocated parent)).1, ?_, P,
      rfl, parent⟩
    exact fun de member => (List.not_mem_nil member).elim

/-- `create` makes an inode with a link. -/
theorem Forest.made (forest : Forest w) (begins : Begins new w P X w1)
    (links : Linked w1 P name X w') (typed : new.type ≠ .free) (free : w.type X = .free)
    (small : X ≠ 0 ∧ X < NINODES) (parent : w.LinkedDir P) (short : ShortLinks w)
    (room : new.type = .dir → w.nlink P ≠ 32767) : Forest w' := by
  have before := forest.with new.type free small parent
  have apart : X ≠ P := by
    rintro rfl
    exact LinkedDir.allocated parent free
  have tidy1 := forest.tidy.begins begins small.1 (forest.numbered P (LinkedDir.allocated parent)).1
  have more : OneMore (w.with new.type P X) w' P (firstFree (w1.entries P)) X := by
    refine (links.oneMore tidy1 small.1).congr (fun j => ?_) fun j => ?_
    · rw [type_with, begins.type]
    · rw [begins.entries small.1]
      exact Function.update_apply _ _ _ _
  have tidy : AllTidy w' := tidy1.linked links
  have parent' : (w.with new.type P X).LinkedDir P := by
    grind [World.LinkedDir, type_with, nlink_with]
  have type : (w.with new.type P X).type X = new.type := by rw [type_with, if_pos rfl]
  have self : w'.nlink X = 1 := by rw [links.nlink, begins.nlink apart]
  by_cases dir : new.type = .dir
  · have nlink : ∀ j, w'.nlink j = (w.with new.type P X).nlink j + if j = X ∨ j = P then 1 else 0 :=
      by
      intro j
      by_cases here : j = X
      · grind [nlink_with]
      · rw [links.nlink, begins.nlink_other here, nlink_with, if_neg here]
        by_cases isParent : j = P
        · rw [if_pos ⟨isParent, dir⟩, if_pos (Or.inr isParent), isParent,
            toShort_succ (short P (LinkedDir.allocated parent)) (room dir)]
        · rw [if_neg fun both => isParent both.1, if_neg (not_or.mpr ⟨here, isParent⟩), add_zero]
    have linked : ∀ D, w'.LinkedDir D ↔ (w.with new.type P X).LinkedDir D ∨ D = X := by
      intro D
      by_cases here : D = X
      · refine iff_of_true ⟨?_, ?_⟩ (Or.inr here)
        · rw [more.type, here, type, dir]
        · rw [here, self]
          exact one_pos
      · rw [or_iff_left here, World.LinkedDir, World.LinkedDir, more.type, nlink]
        refine and_congr_right fun _ => ?_
        split
        · rename_i either
          rw [either.resolve_left here]
          have positive := parent'.2
          omega
        · rw [add_zero]
    have entries : w'.entries X = dotEntries X P := by
      rw [links.entries, if_neg apart, begins.entries small.1, if_pos rfl, if_pos dir]
    refine before.attach ⟨more, tidy, (linked P).mpr (Or.inl parent'), apart, linked, ?_, ?_, ?_⟩
      (type.trans dir) nlink
    · rintro ⟨_, positive⟩
      grind
    · rw [entries]
      exact fun de member => (List.not_mem_nil member).elim
    · rw [World.up, entries]
      rfl
  · refine before.link more tidy parent' (fun isDir => dir (type.symm.trans isDir))
      (fun isFree => typed (type.symm.trans isFree)) fun j => ?_
    rw [links.nlink]
    split
    · grind [Linked.nlink, nlink_with]
    · rename_i here
      rw [begins.nlink_other here, if_neg fun both => dir both.2, nlink_with, if_neg here]

/-- `sys_link` increments the link count first, and makes the entry then. -/
theorem Forest.linked (forest : Forest w) (counted : Recached (w.change I .link) w1)
    (links : Linked w1 P name I w') (file : w.type I ≠ .dir) (allocated : w.type I ≠ .free)
    (parent : 1 ≤ w.nlink P) (short : toShort (w.nlink I) = w.nlink I) (room : w.nlink I ≠ 32767) :
    Forest w' := by
  obtain ⟨cache, rfl⟩ := counted
  have type : ∀ j, (w.change I .link).type j = w.type j := fun j => type_change w I j .link
  have tidy : AllTidy { w.change I .link with cache := cache } := forest.tidy.congr type
    fun _ => rfl
  have more : OneMore w w' P _ I := (links.oneMore tidy (forest.numbered I allocated).1).congr
    (fun j => (type j).symm) fun _ => rfl
  have dir : w.type P = .dir := (type P).symm.trans links.dir
  refine forest.link more (tidy.linked links) ⟨dir, parent⟩ file allocated fun j => ?_
  rw [links.nlink]
  refine (nlink_change w I j .link).trans ?_
  split
  · exact toShort_succ short room
  · rfl

/-- `sys_unlink` clears an entry behind the first two. -/
theorem Forest.removes (forest : Forest w) (short : ShortLinks w)
    (removes : Removes used w P k I w') (dir : w.type P = .dir) {de : Dirent}
    (at_ : (w.entries P)[k]? = some de) (inUse : de.inum ≠ 0) (inum : de.inum = I) (back : 2 ≤ k)
    (alone : ¬ Full w I → ∀ U, w.type U = .dir → ¬ w.LinkedDir U → w.up U ≠ some I) :
    Forest w' := by
  obtain ⟨size, addrs, w1, w2, cleared, dropParent, drop⟩ := removes.steps
  have parent : w.LinkedDir P := by grind [bare, Empty.none]
  have entry : w.Refers I P k := inum ▸ refers_of_entry forest.tidy parent at_ (by omega) inUse
  have shortP := short P (LinkedDir.allocated parent)
  have apart := removes.apart
  have leaf := fun isDir : w.type I = .dir => forest.leaf entry back isDir (removes.empty isDir)
  -- The parent keeps a link, so that it is not freed.
  have type1 : ∀ j, w1.type j = w.type j := by
    intro j
    rw [cleared]
    split
    · rw [type_change, type_resize]
      rfl
    · rw [type_resize]
      rfl
  have nlink1 : ∀ j, w1.nlink j = w.nlink j - if j = P ∧ w.type I = .dir then 1 else 0 := by
    intro j
    rw [cleared]
    split
    · rename_i isDir
      rw [nlink_change]
      split
      · rename_i here
        change toShort (((((w.invalidate I).invalidate P).put P k Dirent.zero).resize P size
          addrs).nlink P - 1) = _
        rw [nlink_resize, if_pos ⟨here, isDir⟩, here]
        exact toShort_pred shortP parent.2
      · rename_i here
        rw [nlink_resize, if_neg fun both => here both.1, sub_zero]
        rfl
    · rename_i other
      rw [nlink_resize, if_neg fun both => other both.2, sub_zero]
      rfl
  have entries1 : ∀ j, w1.entries j =
    if j = P then putEntry (w.entries P) k Dirent.zero else w.entries j := by
    intro j
    rw [cleared]
    split <;> exact Function.update_apply _ _ _ _
  have linked1 : w1.nlink P ≠ 0 := by
    have positive := parent.2
    rw [nlink1]
    split
    · rename_i isDir
      have two := (leaf isDir.2).2.2.1
      omega
    · omega
  obtain rfl := dropParent.linked linked1
  refine Forest.drop ?_ drop
  have type : ∀ j, (w2.change I .unlink).type j = w.type j := fun j => by rw [type_change, type1]
  have nlink : ∀ j, (w2.change I .unlink).nlink j =
      if j = I then w.nlink I - 1 else w.nlink j - if j = P ∧ w.type I = .dir then 1 else 0 := by
    intro j
    rw [nlink_change]
    split
    · change toShort (w2.nlink I - 1) = _
      rw [nlink1, if_neg fun both => apart both.1, sub_zero]
      exact toShort_pred (short I removes.allocated) removes.positive
    · exact nlink1 j
  have less : OneMore (w2.change I .unlink) w P k I := by
    refine ⟨fun j => (type j).symm, back, fun D l other => ?_, fun e there => ?_, de, at_,
      inUse, inum⟩
    · change _ = (w2.entries D)[l]?
      grind [getElem?_putEntry, Removes.inside]
    · change (w2.entries P)[k]? = some e at there
      rw [entries1, if_pos rfl, getElem?_putEntry _ removes.inside, if_pos rfl] at there
      cases there
      rfl
  have tidy : AllTidy (w2.change I .unlink) := forest.tidy.clear back removes.inside type entries1
  by_cases isDir : w.type I = .dir
  · have empty := removes.empty isDir
    refine forest.detach less tidy parent apart isDir empty (alone fun full => full.2 empty)
      fun j => ?_
    grind
  · refine forest.unlink less tidy parent isDir removes.allocated fun j => ?_
    grind

end Steps

section Cache

/-- A valid entry of the name cache: of a directory it is right, and of a freed one or its
successor it is "." or "..". -/
structure Known (w : World) (e : Entry) : Prop where
  dev : e.dev = ROOTDEV
  inum : e.inum ≠ 0
  right : w.type e.parentInum = .dir → Matches w e
  dots : w.type e.parentInum ≠ .dir → Dots e.name

def Remembers (w : World) : Prop := w.cache.All (Known w)

variable {used off : Nat → Prop} {dirs : List Nat} {w w1 w' : World} {P X I k : Nat}
  {name : List UInt8} {new : Dinode} {e : Entry}

theorem Known.congr (known : Known w e) (type : w'.type e.parentInum = w.type e.parentInum)
    (entries : w'.entries e.parentInum = w.entries e.parentInum) : Known w' e := by
  refine ⟨known.dev, known.inum, ?_, ?_⟩
  · rw [type]
    exact fun dir => (known.right dir).congr entries
  · rw [type]
    exact known.dots

theorem Remembers.congr (remembers : Remembers w) (type : ∀ j, w'.type j = w.type j)
    (entries : ∀ j, w'.entries j = w.entries j) (cache : w'.cache = w.cache) : Remembers w' := by
  grind [Remembers, Cache.All.mono, Known.congr]

/-- A name is added that is right. -/
theorem Remembers.add (before : w.cache.All (Known w'))
    (cache : w'.cache = namecacheAdd w.cache ROOTDEV P name I)
    (there : scan name (w'.entries P) = some (k, I)) (dir : w'.type P = .dir) : Remembers w' := by
  rw [Remembers, cache]
  refine before.add fun e hits inum => ?_
  have right : Matches w' e := matches_of_hits hits inum there
  refine ⟨right.dev, right.inum, fun _ => right, fun other => ?_⟩
  rw [((Entry.hits_iff e).mp hits).2.2.1] at other
  exact (other dir).elim

theorem Remembers.filled (remembers : Remembers w) (fills : Filled dirs w w') : Remembers w' := by
  induction fills with
  | refl => exact remembers
  | step _ _ dir _ there ih =>
    refine Remembers.add (Cache.All.mono ih fun e _ known => ?_) rfl there dir
    exact known.congr rfl rfl

theorem Remembers.linked (remembers : Remembers w) (linked : Linked w P name I w')
    (nonzero : I ≠ 0) :
    Remembers w' := by
  refine Remembers.add (Cache.All.mono remembers fun e _ known => ?_) linked.cache
    (linked.scan_self nonzero) ((linked.type P).trans linked.dir)
  refine ⟨known.dev, known.inum, fun dir => ?_, fun other => known.dots ?_⟩
  · exact (known.right ((linked.type _).symm.trans dir)).linked linked
  · rwa [linked.type] at other

theorem Remembers.removes (remembers : Remembers w) (removes : Removes used w P k I w') :
    Remembers w' := by
  have same := removes.sameBut
  rw [Remembers, same.cache]
  refine (Cache.All.invalidate_both remembers I P fun e known => known.dev).mono fun e _ left => ?_
  exact left.1.congr (same.type _ left.2) (same.entries _ left.2)

/-- A directory that is freed had no entries but "." and "..". -/
theorem Remembers.drop (remembers : Remembers w) (forest : Forest w) (drop : Drop used w X w') :
    Remembers w' := by
  rcases drop with rfl | ⟨allocated, zero, _, addrs, rfl⟩
  · exact remembers
  · refine Cache.All.mono remembers fun e _ known => ?_
    by_cases here : e.parentInum = X
    · have dots : Dots e.name := by
        by_cases dir : w.type X = .dir
        · rw [← here] at dir zero
          obtain ⟨k, there⟩ := (known.right dir).found
          obtain ⟨de, at_, is, _⟩ := scan_eq_some.mp there
          by_contra other
          have unlinked : ¬ w.LinkedDir e.parentInum := fun linked => by
            have := linked.2
            omega
          exact is.1 ((forest.bare _ dir unlinked).none at_ ((forest.tidy _ dir).back at_ is other))
        · exact known.dots (here ▸ dir)
      refine ⟨known.dev, known.inum, fun dir => ?_, fun _ => dots⟩
      rw [type_reset, if_pos here] at dir
      cases dir
    · refine known.congr ?_ (Function.update_of_ne here _ _)
      rw [type_reset, if_neg here]

theorem scan_dot (positive : X ≠ 0) : scan [46] (dotEntries X P) = some (0, X) :=
  scan_eq_some.mpr ⟨_, rfl, newEntry_is positive, rfl, fun _ below =>
    (Nat.not_lt_zero _ below).elim⟩

theorem scan_dotdot (parent : P ≠ 0) : scan [46, 46] (dotEntries X P) = some (1, P) := by
  refine scan_eq_some.mpr ⟨_, rfl, newEntry_is parent, rfl, fun j below e there same => ?_⟩
  have first : j = 0 := by omega
  subst first
  cases there
  have apart : fieldString DIRSIZ (strncpy [46] DIRSIZ) ≠ fieldString DIRSIZ [46, 46] := by decide
  exact apart same.2

/-- A new directory has no old name in the cache, or `create` panics. -/
theorem Remembers.begins (remembers : Remembers w) (begins : Begins new w P X w')
    (free : w.type X = .free) (positive : X ≠ 0) (parent : P ≠ 0) : Remembers w' := by
  have old : w.cache.All fun e => Known w e ∧ (e.parentInum = X → Dots e.name) := by
    refine Cache.All.mono remembers fun e _ known => ⟨known, fun here => known.dots ?_⟩
    rw [here, free]
    exact Itype.noConfusion
  have type := begins.type
  have entries := begins.entries positive
  have others : ∀ e : Entry, e.parentInum ≠ X → Known w e → Known w' e := by
    intro e here known
    refine known.congr ?_ ?_
    · rw [type, if_neg here]
    · rw [entries, if_neg here]
  obtain ⟨din, fresh, begins⟩ := begins
  split at begins
  · rename_i dir
    obtain ⟨w1, dot, dotdot⟩ := begins
    have isDir : w'.type X = .dir := by rw [type, if_pos rfl, dir]
    have dots : w'.entries X = dotEntries X P := by rw [entries, if_pos rfl, if_pos dir]
    -- After the lookup of "." an entry of the inode that is for "." is the new one.
    have first : w1.cache.All fun e => e.inum ≠ 0 ∧ (e.parentInum ≠ X → Known w e) ∧
        (e.parentInum = X → e.dev = ROOTDEV ∧ Dots e.name) ∧
        (e.hits ROOTDEV X [46] = true → e.inum = X) := by
      rw [dot.cache]
      refine Cache.All.add (Cache.All.mono (old.miss (fun e good => good.1.inum) dot.miss)
        fun e _ good => ?_) fun e hits inum => ?_
      · refine ⟨good.1.1.inum, fun _ => good.1.1, fun here => ⟨good.1.1.dev, good.1.2 here⟩,
          fun hits => ?_⟩
        rw [good.2] at hits
        cases hits
      · obtain ⟨_, dev, here, same⟩ := (Entry.hits_iff e).mp hits
        refine ⟨inum ▸ positive, fun apart => (apart here).elim, fun _ => ⟨dev, Or.inl ?_⟩,
          fun _ => inum⟩
        exact (namecmp_eq_zero _ _).mpr same
    -- After the lookup of ".." no other one is left.
    have second : w1.cache.All (Known w') := by
      refine Cache.All.mono (first.miss (fun e good => good.1) dotdot.miss) fun e valid good => ?_
      obtain ⟨⟨nonzero, known, inside, isDot⟩, missed⟩ := good
      by_cases here : e.parentInum = X
      · obtain ⟨dev, isDots⟩ := inside here
        have hits : e.hits ROOTDEV X [46] = true := by
          rcases isDots with same | same
          · exact (Entry.hits_iff e).mpr ⟨valid, dev, here, (namecmp_eq_zero _ _).mp same⟩
          · grind [Entry.hits_iff, namecmp_eq_zero]
        refine ⟨dev, nonzero, fun _ => ?_, fun _ => isDots⟩
        exact matches_of_hits (k := 0) hits (isDot hits) (by rw [dots]; exact scan_dot positive)
      · exact others e here (known here)
    refine Remembers.add second dotdot.cache (k := 1) ?_ isDir
    rw [dots]
    exact scan_dotdot parent
  · rename_i file
    subst begins
    refine Cache.All.mono old fun e _ good => ?_
    by_cases here : e.parentInum = X
    · refine ⟨good.1.dev, good.1.inum, fun dir => ?_, fun _ => good.2 here⟩
      grind
    · exact others e here good.1

end Cache

end Xv6.Fs
