import Xv6.Fs.Effect

/- The name cache agrees with the directories, as long as no name is found in, or put into,
a directory that has no links: such a directory is freed without a word to the cache. -/
namespace Xv6.Fs

open Namecache CString

/-- The directory of a cached name may not be freed. A count that was incremented once too
often is the smallest short, and is not touched any more. -/
def Held (w : World) (D : Nat) : Prop := w.type D = .dir ∧ (0 < w.nlink D ∨ w.nlink D = -32768)

/-- A valid entry of the name cache that agrees with the disk. -/
structure Agrees (w : World) (e : Entry) : Prop extends Matches w e where
  held : Held w e.parentInum

def Coherent (w : World) : Prop := w.cache.All (Agrees w)

section Steps

variable {used : Nat → Prop} {dirs : List Nat} {w w' : World} {D P X I k : Nat} {name : List UInt8}
  {e : Entry}

theorem Held.nonzero (held : Held w D) : w.nlink D ≠ 0 := by
  rcases held.2 with positive | smallest
  · omega
  omega

variable {off : Nat → Prop}

theorem Agrees.sameBut (agrees : Agrees w e) (same : SameBut off w w')
    (apart : ¬ off e.parentInum) :
    Agrees w' e := by
  refine ⟨agrees.congr (same.entries _ apart), ?_⟩
  rw [Held, same.type _ apart, same.nlink _ apart]
  exact agrees.held

/-- What is cached does not stand in an inode that is `off`. -/
theorem Coherent.sameBut (coherent : w.cache.All fun e => Agrees w e ∧ ¬ off e.parentInum)
    (same : SameBut off w w') : Coherent w' := by
  rw [Coherent, same.cache]
  exact coherent.mono fun e _ good => good.1.sameBut same good.2

theorem Coherent.fill (coherent : Coherent w) (held : Held w P)
    (there : scan name (w.entries P) = some (k, I)) :
    Coherent (w.fill P name I) := by
  have before : w.cache.All (Agrees (w.fill P name I)) :=
    Cache.All.mono coherent fun e _ agrees => ⟨agrees.congr rfl, agrees.held⟩
  refine before.add fun e hits inum => ⟨matches_of_hits hits inum there, ?_⟩
  rw [((Entry.hits_iff e).mp hits).2.2.1]
  exact held

theorem Coherent.filled (coherent : Coherent w) (fills : Filled dirs w w')
    (linked : ∀ D ∈ dirs, w.type D = .dir → 1 ≤ w.nlink D) : Coherent w' := by
  induction fills with
  | refl => exact coherent
  | step before member dir _ there ih =>
    obtain ⟨cache, rfl⟩ := before.recached
    exact ih.fill ⟨dir, Or.inl (linked _ member dir)⟩ there

/-- The entries of an inode that is not cached as a directory do not matter. -/
theorem Coherent.reset (coherent : Coherent w) (din : Dinode) (apart : ¬ Held w X) :
    Coherent (w.reset X din) := by
  have other : w.cache.All fun e => Agrees w e ∧ ¬ e.parentInum = X :=
    Cache.All.mono coherent fun e _ agrees => ⟨agrees, fun same => apart (same ▸ agrees.held)⟩
  have same : SameBut (fun j => j = X) w (w.reset X din) := sameBut_reset w din rfl
  exact Coherent.sameBut other same

theorem Coherent.drop (coherent : Coherent w) (drop : Drop used w X w') : Coherent w' := by
  rcases drop with rfl | ⟨_, zero, _, addrs, rfl⟩
  · exact coherent
  · exact coherent.reset _ fun held => held.nonzero zero

theorem Coherent.drops (coherent : Coherent w) (drops : Drops w w') : Coherent w' := by
  induction drops with
  | refl => exact coherent
  | step drop _ ih => exact ih (coherent.drop drop)

/-- A change of a file, or of a directory that stays where it is held. -/
theorem Coherent.change (coherent : Coherent w) (c : Change)
    (held : Held w X → Held (w.change X c) X) :
    Coherent (w.change X c) := by
  refine coherent.mono fun e _ agrees => ⟨agrees.congr rfl, ?_⟩
  by_cases here : e.parentInum = X
  · rw [here]
    exact held (here ▸ agrees.held)
  · rw [Held, type_change, nlink_change, if_neg here]
    exact agrees.held

theorem Coherent.changeFile (coherent : Coherent w) (c : Change) (file : w.type X ≠ .dir) :
    Coherent (w.change X c) :=
  coherent.change c fun held => (file held.1).elim

/-- One more link of a directory that has some. -/
theorem held_link (dir : w.type P = .dir) (linked : 1 ≤ w.nlink P)
    (short : toShort (w.nlink P) = w.nlink P) :
    Held (w.change P .link) P := by
  refine ⟨by rw [type_change, dir], ?_⟩
  rw [nlink_change, if_pos rfl]
  change 0 < toShort (w.nlink P + 1) ∨ toShort (w.nlink P + 1) = -32768
  simp only [toShort, Int.bmod_def] at short ⊢
  omega

theorem Coherent.linked (coherent : Coherent w) (linked : Linked w P name I w') (held : Held w P)
    (nonzero : I ≠ 0) : Coherent w' := by
  have held' : ∀ {D}, Held w D → Held w' D := by grind [Held, Linked.type, Linked.nlink]
  have before : w.cache.All (Agrees w') :=
    Cache.All.mono coherent fun e _ agrees => ⟨agrees.toMatches.linked linked, held' agrees.held⟩
  rw [Coherent, linked.cache]
  refine before.add fun e hits inum => ⟨matches_of_hits hits inum (linked.scan_self nonzero), ?_⟩
  rw [((Entry.hits_iff e).mp hits).2.2.1]
  exact held' held

/-- `sys_unlink` drops what is cached of the two inodes before it changes them. -/
theorem Coherent.removes (coherent : Coherent w) (removes : Removes used w P k I w') :
    Coherent w' := by
  refine Coherent.sameBut ?_ removes.sameBut
  refine (Cache.All.invalidate_both coherent I P fun e agrees => agrees.dev).mono fun e _ good =>
    ⟨?_, good.2⟩
  exact ⟨good.1.congr rfl, good.1.held⟩

end Steps

section Runs

variable {s : State} {p : Fin NPROC} {call : Call} {w' : World} {r : Int}

/-- The call finds no name in a directory without links, and puts none into one. -/
def KeepsToLinked (s : State) (e : Fin NPROC × Call) : Prop :=
  ∀ D ∈ e.2.finds s e.1, 1 ≤ s.world.nlink D

instance (s : State) (e : Fin NPROC × Call) : Decidable (KeepsToLinked s e) :=
  inferInstanceAs (Decidable (∀ _ ∈ _, _))

theorem Coherent.begins {w w1 : World} {new : Dinode} {P X : Nat} (coherent : Coherent w)
    (begins : Begins new w P X w1) (free : w.type X = .free) (positive : X ≠ 0) (parent : P ≠ 0)
    (dir : w.type P = .dir) (linked : 1 ≤ w.nlink P) (short : ShortLinks w) :
    Coherent w1 ∧ Held w1 P := by
  have apart : P ≠ X := by grind
  have shortP : toShort (w.nlink P) = w.nlink P := short P (by rw [dir]; exact Itype.noConfusion)
  obtain ⟨din, fresh, begins⟩ := begins
  have reset := coherent.reset din fun held : Held w X => Itype.noConfusion (held.1.symm.trans free)
  have typeP : (w.reset X din).type P = .dir := by rw [type_reset, if_neg apart, dir]
  have nlinkP : (w.reset X din).nlink P = w.nlink P := by rw [nlink_reset, if_neg apart]
  split at begins
  · rename_i isDir
    obtain ⟨w2, dot, dotdot⟩ := begins
    have held := held_link typeP (by rw [nlinkP]; exact linked) (by rw [nlinkP]; exact shortP)
    have counted := reset.change .link fun _ => held
    have heldX : Held ((w.reset X din).change P .link) X := by
      refine ⟨?_, Or.inl ?_⟩
      · rw [type_change, type_reset, if_pos rfl, fresh.type, isDir]
      · rw [nlink_change, if_neg apart.symm, nlink_reset, if_pos rfl, fresh.nlink]
        decide
    have first := counted.linked dot heldX positive
    have heldX2 : Held w2 X := by
      rw [Held, dot.type, dot.nlink]
      exact heldX
    refine ⟨first.linked dotdot heldX2 parent, ?_⟩
    rw [Held, dotdot.type, dotdot.nlink, dot.type, dot.nlink]
    exact held
  · rw [begins]
    refine ⟨reset, typeP, Or.inl ?_⟩
    rw [nlinkP]
    exact linked

/-- A call that keeps to linked directories keeps the cache coherent. -/
theorem Effect.coherent (effect : Effect s p call w' r) (base : Base s) (short : ShortLinks s.world)
    (coherent : Coherent s.world) (keeps : KeepsToLinked s (p, call)) : Coherent w' := by
  have walked : ∀ {w1}, Filled (call.finds s p) s.world w1 → Coherent w1 :=
    fun fills => coherent.filled fills fun D member _ => keeps D member
  -- The second walk of `sys_link`, after the count of a file was incremented.
  have again : ∀ {w1 w2 I}, Filled (call.finds s p) s.world w1 → w1.type I ≠ .dir →
      Filled (call.finds s p) (w1.change I .link) w2 →
      Coherent w2 ∧ ∀ D ∈ call.finds s p, w2.type D = .dir → 1 ≤ w2.nlink D := by
    intro w1 w2 I fills file more
    have counted := (walked fills).changeFile .link file
    have links : ∀ D ∈ call.finds s p, (w1.change I .link).type D = .dir →
      1 ≤ (w1.change I .link).nlink D := by
      intro D member dir
      obtain ⟨cache, rfl⟩ := fills.recached
      rw [type_change] at dir
      have other : D ≠ I := by
        rintro rfl
        exact file dir
      rw [nlink_change, if_neg other]
      exact keeps D member
    refine ⟨counted.filled more links, ?_⟩
    obtain ⟨cache, rfl⟩ := more.recached
    exact links
  cases effect with
  | looked fills => exact walked fills
  | made aim reach kind makes fills dir lookup vacant begins links drop =>
    rename_i w1 w2 w3 type P X name
    obtain ⟨positive, _, free⟩ := vacant_spec vacant
    have before := walked fills
    obtain ⟨cache, rfl⟩ := fills.recached
    obtain ⟨parent, -⟩ := base.numbered P (by
      change s.world.type P = .dir at dir
      rw [dir]
      exact Itype.noConfusion)
    obtain ⟨begun, held⟩ := before.begins begins free (Nat.pos_iff_ne_zero.mp positive) parent dir
      (keeps P reach) short
    exact (begun.linked links held (Nat.pos_iff_ne_zero.mp positive)).drop drop
  | linked isLink source aim reach fills other allocated more links drop =>
    rename_i w1 w2 w3 I P name
    obtain ⟨counted, linked⟩ := again fills other more
    have nonzero : I ≠ 0 := by
      obtain ⟨cache, rfl⟩ := fills.recached
      exact (base.numbered I allocated).1
    exact (counted.linked links ⟨links.dir, Or.inl (linked P reach links.dir)⟩ nonzero).drop drop
  | undone fills other allocated more drop =>
    rename_i w1 w2 I
    refine ((again fills other more).1.changeFile .unlink ?_).drop drop
    obtain ⟨cache, rfl⟩ := more.recached
    change (w1.change I .link).type I ≠ .dir
    rw [type_change]
    exact other
  | removed isUnlink aim reach fills dir other lookup removes =>
    have found := @Lookup.filled (call.finds s p) _ _ _ _ _ lookup dir fun _ => reach
    exact (walked (fills.trans found)).removes removes
  | dropped fills drops => exact (walked fills).drops drops
  | wrote writes =>
    induction writes with
    | refl => exact coherent
    | step _ _ wrote ih =>
      rw [wrote]
      refine Cache.All.mono ih fun e _ agrees => ⟨agrees.congr rfl, ?_⟩
      rw [Held, type_resize, nlink_resize]
      exact agrees.held
  | chmod isChmod allowed fills eq =>
    rw [eq]
    refine (walked fills).change _ fun held => ?_
    rw [Held, (links_change rfl _).1, (links_change rfl _).2]
    exact held
  | chown isChown allowed fills eq =>
    rw [eq]
    refine (walked fills).change _ fun held => ?_
    rw [Held, (links_change rfl _).1, (links_change rfl _).2]
    exact held

variable {im : Mkfs.Image} {files : List Mkfs.Source} {devsw : Int → Option Device}
  {calls : List (Fin NPROC × Call)}

/-- After any run of calls on an image of mkfs that keep to linked directories, a valid entry
of the name cache stands for an entry of a directory. -/
theorem name_cache_coherent (made : Mkfs.mkfs files = some im) (few : files.length < NINODES - 1)
    (room : im.freeblock ≤ FSSIZE) (meets : SystemMeets KeepsToLinked im devsw calls)
    (reached : runSystem im devsw calls = some s) (i : Fin NAMECACHE_SIZE)
    (valid : (s.namecache.entries i).valid = true) :
    (s.namecache.entries i).dev = ROOTDEV ∧ s.world.type (s.namecache.entries i).parentInum = .dir ∧
    ∃ k, scan (s.namecache.entries i).name (s.world.entries (s.namecache.entries i).parentInum) =
      some (k, (s.namecache.entries i).inum) := by
  have image := Mkfs.mkfs_made made few room
  have holds : Base s ∧ ShortLinks s.world ∧ Coherent s.world := by
    refine @run_system im files devsw KeepsToLinked (fun s => ShortLinks s.world ∧
      Coherent s.world) image
      (fun s _ world => ?_) (fun s p call r s' base both keeps taken => ?_) calls s meets reached
    · rw [world]
      exact ⟨shortLinks_boot image, all_namecacheInit _⟩
    · have effect := callStep_effect base taken
      exact ⟨effect.stable stable_shortLinks base.numbered both.1,
        effect.coherent base both.1 both.2 keeps⟩
  have agrees := holds.2.2 i valid
  exact ⟨agrees.dev, agrees.held.1, agrees.found⟩

/-- The first process makes a directory and leaves its name in the cache. -/
def makeAndEnter : List (Fin NPROC × Call) := [(0, .sysMkdir [47, 100]), (0, .sysChdir [47, 100])]

theorem name_cache_coherent_makeAndEnter : ∃ im s, Mkfs.mkfs [] = some im ∧
    runSystem im (fun _ => none) makeAndEnter = some s ∧ (s.namecache.entries 2).valid = true ∧
    ∃ k, scan (s.namecache.entries 2).name (s.world.entries (s.namecache.entries 2).parentInum) =
      some (k, (s.namecache.entries 2).inum) := by
  obtain ⟨im, made, room, s, ran, meets, valid⟩ : Mkfs.Yields [] fun im =>
      ∃ s ∈ runSystem im (fun _ => none) makeAndEnter,
        SystemMeets KeepsToLinked im (fun _ => none) makeAndEnter ∧ (s.namecache.entries 2).valid =
        true := by
    decide +kernel
  exact ⟨im, s, made, ran, valid, (name_cache_coherent made (by decide) room meets ran 2 valid).2.2⟩

/-- A process leaves a directory that was unlinked, by its ".." entry. -/
def leaveUnlinked : List (Fin NPROC × Call) :=
  makeAndEnter ++ [(0, .sysUnlink [47, 100]), (0, .sysChdir [46, 46])]

/-- The directory is freed, and its ".." is still in the cache. -/
theorem name_cache_stale : ∃ im s i, Mkfs.mkfs [] = some im ∧
    runSystem im (fun _ => none) leaveUnlinked = some s ∧ (s.namecache.entries i).valid = true ∧
    s.world.type (s.namecache.entries i).parentInum = .free := by
  obtain ⟨im, made, -, s, ran, i, stale⟩ : Mkfs.Yields [] fun im =>
      ∃ s ∈ runSystem im (fun _ => none) leaveUnlinked, ∃ i, (s.namecache.entries i).valid = true ∧
        s.world.type (s.namecache.entries i).parentInum = .free := by decide +kernel
  exact ⟨im, s, i, made, ran, stale⟩

end Runs

end Xv6.Fs
