import Xv6.Fs.Coherence
import Xv6.Fs.Room

/- dirlookup finds a name in the name cache or by a scan of the directory, and dirlink adds a
name for both. -/
namespace Xv6.Fs

open Exec hiding panic
open Namecache CString

section Slots

/-- The slot that `iget` gives, if there is one for the inode or one that is not in use. -/
def slotFor (icache : Fin NINODE → Inode) (dev inum : Nat) : Option (Fin NINODE) :=
  ((List.finRange NINODE).find? fun i =>
      0 < (icache i).ref ∧ (icache i).dev = dev ∧ (icache i).inum = inum).or
    ((List.finRange NINODE).find? fun i => (icache i).ref = 0)

variable {s : State} {dev X : Nat} {i : Fin NINODE}

theorem iget_full (full : slotFor s.icache dev X = none) :
    iget dev X s = .panic "iget: no inodes" := by
  obtain ⟨absent, none⟩ := Option.or_eq_none_iff.mp full
  unfold iget
  rw [bind_def]
  dsimp only [Exec.get]
  rw [absent, none]
  rfl

/-- `iget` does not give up an inode that is in use, and does not touch a lock. -/
theorem iget_slot (slot : slotFor s.icache dev X = some i) :
    ∃ ip, iget dev X s = .ok (i, s.setSlot i ip) ∧
    ip.inum = X ∧ ip.lock = (s.icache i).lock ∧ ¬ (ip.valid = true ∧ ip.ref = 1) := by
  unfold slotFor at slot
  unfold iget
  rw [bind_def]
  dsimp only [Exec.get]
  cases found : (List.finRange NINODE).find? fun i =>
      0 < (s.icache i).ref ∧ (s.icache i).dev = dev ∧ (s.icache i).inum = X with
  | some j =>
    rw [found, Option.some_or, Option.some.injEq] at slot
    subst slot
    have hit := List.find?_some found
    simp only [decide_eq_true_eq] at hit
    refine ⟨_, rfl, hit.2.2, rfl, fun last => ?_⟩
    have one : (s.icache j).ref + 1 = 1 := last.2
    omega
  | none =>
    rw [found, Option.none_or] at slot
    rw [slot]
    exact ⟨_, rfl, rfl, rfl, fun last => Bool.noConfusion last.1⟩

end Slots

section Agreement

variable {s : State} {i : Fin NINODE} {P : Nat} {name : List UInt8} {w : World}

/-- The inode number that a lookup returns, and what it stores in `*poff`. -/
def lookedUp (outcome : Outcome (Option (Fin NINODE × Nat) × State)) :
    Outcome (Option (Nat × Nat)) :=
  outcome.map fun result => result.1.map fun found => ((result.2.icache found.1).inum, found.2)

theorem world_cache (s : State) : s.world.cache = s.namecache := rfl

/-- What is returned for an inode number and an offset that were found. -/
def referred (icache : Fin NINODE → Inode) : Option (Nat × Nat) → Outcome (Option (Nat × Nat))
  | none => .ok none
  | some found =>
    if slotFor icache ROOTDEV found.1 = none then .panic "iget: no inodes" else .ok (some found)

def Matching (w : World) : Prop := w.cache.All (Matches w)

/-- A cached name is in the directory, for the cached inode. -/
theorem Matching.hit (matching : Matching w) (hit : namecacheLookup w.cache ROOTDEV P name ≠ 0) :
    (scan name (w.entries P)).map Prod.snd = some (namecacheLookup w.cache ROOTDEV P name) := by
  obtain ⟨e, good, hits, inum⟩ := matching.lookup hit
  obtain ⟨_, _, parent, same⟩ := (Entry.hits_iff e).mp hits
  rw [← inum, ← scan_congr same, ← parent]
  exact good.there

theorem lookedUp_iget (X off : Nat) :
    lookedUp ((iget ROOTDEV X >>= fun ip => pure (some (ip, off))) s) = referred s.icache
      (some (X, off)) := by
  rw [bind_def]
  cases slot : slotFor s.icache ROOTDEV X with
  | none =>
    rw [iget_full slot, referred, if_pos slot]
    rfl
  | some j =>
    obtain ⟨ip, got, inum, _⟩ := iget_slot slot
    rw [got, referred, if_neg (by rw [slot]; exact Option.some_ne_none j)]
    change Outcome.ok (some (((s.setSlot j ip).icache j).inum, off)) = _
    rw [setSlot_self, inum]

/-- The scan, whatever is cached. -/
theorem OpenDir.scans (opened : OpenDir s i P) (name : List UInt8) :
    lookedUp (dirlookup.loop i name (Fs.offsets 0 (s.icache i).din.size) s) =
      referred s.icache ((scan name (s.world.entries P)).map fun found =>
        (found.2, DIRENTSIZE * found.1)) := by
  have scanned := opened.loop name (Nat.zero_add _)
  rw [← opened.all_offsets, List.drop_zero] at scanned
  rw [scanned]
  cases scan name (s.world.entries P) with
  | none => rfl
  | some found =>
    have sees := opened.sees
    dsimp only
    rw [takeFound, bind_def, cacheName_eq sees, Nat.zero_add]
    dsimp only
    rw [bind_def]
    dsimp only [Exec.get]
    rw [show ((s.putCache (namecacheAdd s.namecache ROOTDEV P name found.2)).icache i).dev = ROOTDEV
      from sees.dev]
    exact lookedUp_iget found.2 (DIRENTSIZE * found.1)

theorem OpenDir.looks (opened : OpenDir s i P) (name : List UInt8) :
    lookedUp (dirlookup i name s) = referred s.icache
      ((s.world.lookup P name).2.map fun found => (found.1, DIRENTSIZE * found.2)) := by
  have sees := opened.sees
  have dir : (s.icache i).din.type = .dir := by
    rw [sees.din]
    exact opened.dir
  have scanned := opened.scans name
  unfold dirlookup World.lookup
  rw [bind_def]
  dsimp only [Exec.get]
  rw [if_neg (fun other => other dir), sees.dev, sees.inum, world_cache]
  by_cases hit : namecacheLookup s.namecache ROOTDEV P name ≠ 0
  · rw [if_pos hit, if_pos hit]
    exact lookedUp_iget _ 0
  · grind

theorem referred_inj {icache : Fin NINODE → Inode} {X off off' : Nat} :
    referred icache (some (X, off)) = referred icache (some (X, off')) ↔
      off = off' ∨ slotFor icache ROOTDEV X = none := by
  unfold referred
  grind

/-- `dirlookup` agrees with its loop if the name is not cached, or is that of the first entry, to
which the offset of a cached name points. Otherwise both give the same inode, but not the same
offset. -/
theorem dirlookup_agrees_with_scan (opened : OpenDir s i P) (matching : Matching s.world)
    (name : List UInt8) :
    lookedUp (dirlookup i name s) = lookedUp
      (dirlookup.loop i name (offsets 0 (s.icache i).din.size) s) ↔
      namecacheLookup s.namecache ROOTDEV P name = 0 ∨
      (scan name (s.world.entries P)).map Prod.fst = some 0 ∨
      slotFor s.icache ROOTDEV (namecacheLookup s.namecache ROOTDEV P name) = none := by
  rw [opened.looks, opened.scans]
  by_cases miss : namecacheLookup s.namecache ROOTDEV P name = 0
  · refine ⟨fun _ => Or.inl miss, fun _ => ?_⟩
    rw [World.lookup, world_cache, if_neg (fun hit => hit miss)]
    cases scan name (s.world.entries P) <;> rfl
  · have there := matching.hit miss
    obtain ⟨⟨k, X⟩, found, inum⟩ := Option.map_eq_some_iff.mp there
    have cached : namecacheLookup s.namecache ROOTDEV P name = X := inum.symm
    rw [World.lookup, world_cache, if_pos miss, found, cached]
    rw [cached] at miss
    have first : DIRENTSIZE * 0 = DIRENTSIZE * k ↔ k = 0 := by
      simp only [DIRENTSIZE, DIRSIZ]
      omega
    simp only [Option.map_some, Option.some.injEq, referred_inj, first, miss, false_or]

/-- The root directory as a call has it that walks through it. -/
def lockRoot : Exec State (Fin NINODE) := do
  let ip ← iget ROOTDEV ROOTINO
  ilock 0 ip
  return ip

theorem lockRoot_opened {s s' : State} {i : Fin NINODE} (base : Base s)
    (ran : lockRoot s = .ok (i, s')) :
    s'.world.type ROOTINO = .dir → OpenDir s' i ROOTINO := by
  have spec : Spec Stops.all lockRoot s fun i s' => Midway s.outside 0 [(i, ROOTINO)] [i] s' := by
    refine Spec.bind (iget_step (Or.inr trivial) Nat.one_pos (base.mid 0) ROOTINO) ?_
    rintro ip s1 ⟨mid1, _⟩
    refine Spec.bind (ilock_step mid1 List.mem_cons_self (fun _ => trivial) fun _ => trivial) ?_
    rintro _ s2 ⟨mid2, _⟩
    exact Spec.pure mid2
  have mid := spec.ok ran
  exact mid.opened (mid.sees List.mem_cons_self List.mem_cons_self)

/-- The locked root directory after these calls on an empty image, if the cache matches it. -/
def rootAfter (calls : List (Fin NPROC × Call)) (check : Fin NINODE → State → Bool) :
    Option (Fin NINODE × State) :=
  (Mkfs.mkfs []).bind fun im => if im.freeblock ≤ FSSIZE then
    (runSystem im (fun _ => none) calls).bind fun s => (lockRoot s).toOption.bind fun locked =>
      if locked.2.world.type ROOTINO = .dir ∧ (∀ j, (locked.2.namecache.entries j).valid = true →
            (locked.2.namecache.entries j).dev = ROOTDEV ∧ (scan (locked.2.namecache.entries j).name
              (locked.2.world.entries (locked.2.namecache.entries j).parentInum)).map Prod.snd =
                some (locked.2.namecache.entries j).inum) ∧ check locked.1 locked.2 = true
      then some locked
      else none
    else none

theorem rootAfter_spec {calls : List (Fin NPROC × Call)} {check : Fin NINODE → State → Bool}
    {i : Fin NINODE} {s : State} (ready : rootAfter calls check = some (i, s)) :
    OpenDir s i ROOTINO ∧ Matching s.world ∧ check i s = true := by
  obtain ⟨im, made, ran⟩ := Option.bind_eq_some_iff.mp ready
  split at ran
  · rename_i fits
    obtain ⟨first, reached, ran⟩ := Option.bind_eq_some_iff.mp ran
    obtain ⟨locked, took, checked⟩ := Option.bind_eq_some_iff.mp ran
    split at checked
    · rename_i facts
      cases checked
      rw [Outcome.toOption_eq_some] at took
      obtain ⟨dir, matching, fine⟩ := facts
      have base := run_system_base (Mkfs.mkfs_made made (by decide) fits) reached
      exact ⟨lockRoot_opened base took dir, fun j valid =>
        ⟨(matching j valid).1, (matching j valid).2⟩, fine⟩
    · cases checked
  · cases ran

theorem dirlookup_agrees_with_scan_dot : ∃ i s, OpenDir s i ROOTINO ∧ Matching s.world ∧
    lookedUp (dirlookup i [46] s) = lookedUp
      (dirlookup.loop i [46] (offsets 0 (s.icache i).din.size) s) := by
  have returns : (rootAfter [] fun _ s =>
      decide (namecacheLookup s.namecache ROOTDEV ROOTINO [46] = 0)).isSome =
        true := by decide +kernel
  obtain ⟨⟨i, s⟩, ready⟩ := Option.isSome_iff_exists.mp returns
  obtain ⟨opened, matching, miss⟩ := rootAfter_spec ready
  exact ⟨i, s, opened, matching,
    (dirlookup_agrees_with_scan opened matching [46]).mpr (Or.inl (of_decide_eq_true miss))⟩

/-- A call makes the file "a" and so caches its name. The offset that `dirlookup` gives for it is
that of ".". -/
theorem cached_offset_differs : ∃ i s, OpenDir s i ROOTINO ∧ Matching s.world ∧
    lookedUp (dirlookup i [97] s) = .ok (some (2, 0)) ∧
    lookedUp (dirlookup.loop i [97] (offsets 0 (s.icache i).din.size) s) = .ok (some (2, 32)) := by
  have returns : (rootAfter [(0, .sysOpen [47, 97] 0x202)] fun i s =>
      decide ((lookedUp (dirlookup i [97] s)).toOption = some (some (2, 0)) ∧
        (lookedUp (dirlookup.loop i [97] (offsets 0 (s.icache i).din.size) s)).toOption =
          some (some (2, 32)))).isSome = true := by decide +kernel
  obtain ⟨⟨i, s⟩, ready⟩ := Option.isSome_iff_exists.mp returns
  obtain ⟨opened, matching, fine⟩ := rootAfter_spec ready
  have both := of_decide_eq_true fine
  rw [Outcome.toOption_eq_some, Outcome.toOption_eq_some] at both
  exact ⟨i, s, opened, matching, both⟩

end Agreement

section Insertion

variable {s s' : State} {p : Fin NPROC} {i : Fin NINODE} {P I : Nat} {name other : List UInt8}
  {w : World} {ents : List Dirent} {j : Fin NINODE}

/-- A name that is not the new one is found where it was, or not at all. -/
theorem scan_put_apart (absent : scan name ents = none)
    (apart : fieldString DIRSIZ other ≠ fieldString DIRSIZ name) :
    scan other (putEntry ents (firstFree ents) (newEntry name I)) = scan other ents := by
  cases found : scan other ents with
  | some entry => exact scan_put_other found absent
  | none =>
    refine scan_eq_none.mpr fun de member is => ?_
    rcases mem_putEntry member with rfl | old
    · exact apart (is.2.symm.trans (fieldString_strncpy DIRSIZ name))
    · exact scan_eq_none.mp found de old is

/-- The inode that `dirlookup` finds, through the cache or not. -/
theorem Matching.lookup_inum (matching : Matching w) (P : Nat) (name : List UInt8) :
    (w.lookup P name).2.map Prod.fst = (scan name (w.entries P)).map Prod.snd := by
  unfold World.lookup
  split
  · grind [hit]
  · cases scan name (w.entries P) <;> rfl

theorem Linked.matching {w w' : World} (linked : Linked w P name I w') (nonzero : I ≠ 0)
    (matching : Matching w) :
    Matching w' := by
  rw [Matching, linked.cache]
  refine Cache.All.add (Cache.All.mono matching fun e _ right => right.linked linked)
    fun e hits inum => ?_
  exact matches_of_hits hits inum (linked.scan_self nonzero)

/-- The same slots are in use, for the same inodes. -/
def SameSlots (s s' : State) : Prop := ∀ j, (s'.icache j).ref = (s.icache j).ref ∧
  (s'.icache j).dev = (s.icache j).dev ∧ (s'.icache j).inum = (s.icache j).inum

theorem SameSlots.slotFor (same : SameSlots s s') (dev X : Nat) :
    slotFor s'.icache dev X = slotFor s.icache dev X := by
  unfold Fs.slotFor
  congr 2
  · funext j
    obtain ⟨ref, dev, inum⟩ := same j
    rw [ref, dev, inum]
  · funext j
    rw [(same j).1]

/-- The number of the inode that a lookup returns. -/
def inumFound (outcome : Outcome (Option (Fin NINODE × Nat) × State)) : Outcome (Option Nat) :=
  (lookedUp outcome).map fun found => found.map Prod.fst

theorem inumFound_eq {icache : Fin NINODE → Inode} {found found' : Option (Nat × Nat)}
    (same : found.map Prod.fst = found'.map Prod.fst) :
    (referred icache found).map (Option.map Prod.fst) = (referred icache found').map
      (Option.map Prod.fst) := by
  cases found <;> cases found'
  · rfl
  · cases same
  · cases same
  · rename_i first second
    have inum : first.1 = second.1 := Option.some.inj same
    unfold referred
    dsimp only
    rw [inum]
    split
    · rfl
    · exact congrArg (fun X => Outcome.ok (some X)) inum

/-- `name` is new in the directory `P`, for inode `I`, in the first free slot or behind the last. -/
structure Inserted (s s' : State) (i : Fin NINODE) (P : Nat) (name : List UInt8) (I : Nat) :
    Prop where
  absent : scan name (s.world.entries P) = none
  cached : namecacheLookup s'.namecache ROOTDEV P name = I
  scanned : scan name (s'.world.entries P) = some (firstFree (s.world.entries P), I)
  others : ∀ other, fieldString DIRSIZ other ≠ fieldString DIRSIZ name →
    inumFound (dirlookup i other s') = inumFound (dirlookup i other s)
  live : ∀ (k : Nat) (de : Dirent), (s.world.entries P)[k]? = some de → de.inum ≠ 0 →
    (s'.world.entries P)[k]? = some de
  size : (s'.dinodes P).size = if ∃ de ∈ s.world.entries P, de.inum = 0 then (s.dinodes P).size
    else (s.dinodes P).size + DIRENTSIZE

/-- `dirlink` refuses a name that the directory has, and adds one that it does not have. -/
structure InsertLaw (p : Fin NPROC) (i : Fin NINODE) (P : Nat) (name : List UInt8) (I : Nat)
    (s : State) : Prop where
  adds : ∀ s', dirlink p i name I s = .ok (0, s') → Inserted s s' i P name I
  keeps : ∀ s', dirlink p i name I s = .ok (-1, s') → s'.blocks = s.blocks ∧ s'.dinodes = s.dinodes
  refuses : (∃ s', dirlink p i name I s = .ok (-1, s')) ↔ scan name (s.world.entries P) ≠ none
  accepts : (∃ s', dirlink p i name I s = .ok (0, s')) ↔ scan name (s.world.entries P) = none

theorem OpenDir.misses (opened : OpenDir s i P) (matching : Matching s.world)
    (absent : scan name (s.world.entries P) = none) :
    namecacheLookup s.namecache ROOTDEV P name = 0 ∧ dirlookup i name s = .ok (none, s) := by
  have sees := opened.sees
  have dir : (s.icache i).din.type = .dir := by
    rw [sees.din]
    exact opened.dir
  have miss : namecacheLookup s.namecache ROOTDEV P name = 0 := by
    by_contra hit
    have there := matching.hit hit
    rw [absent] at there
    cases there
  have scanned := opened.loop name (Nat.zero_add _)
  rw [← opened.all_offsets, List.drop_zero, absent] at scanned
  refine ⟨miss, ?_⟩
  unfold dirlookup
  grind [bind_def, Exec.get, Sees.dev, Sees.inum]

/-- A name that is there is found, in the cache or by the scan, which puts it into the cache. -/
theorem OpenDir.finds (opened : OpenDir s i P) (matching : Matching s.world) {k X : Nat}
    (found : scan name (s.world.entries P) = some (k, X)) : ∃ cache off,
      dirlookup i name s = (iget ROOTDEV X >>= fun ip => pure (some (ip, off)))
        (s.putCache cache) := by
  have sees := opened.sees
  have dir : (s.icache i).din.type = .dir := by
    rw [sees.din]
    exact opened.dir
  unfold dirlookup
  rw [bind_def]
  dsimp only [Exec.get]
  rw [if_neg (fun other => other dir), sees.dev, sees.inum]
  split
  · rename_i hit
    have there := matching.hit hit
    rw [found, world_cache] at there
    rw [← Option.some.inj there]
    exact ⟨s.namecache, 0, rfl⟩
  · have scanned := opened.loop name (Nat.zero_add _)
    rw [← opened.all_offsets, List.drop_zero, found] at scanned
    refine ⟨namecacheAdd s.namecache ROOTDEV P name X, DIRENTSIZE * (0 + k), ?_⟩
    rw [scanned]
    dsimp only
    rw [takeFound, bind_def, cacheName_eq sees]
    dsimp only
    rw [bind_def]
    dsimp only [Exec.get]
    rw [show ((s.putCache (namecacheAdd s.namecache ROOTDEV P name X)).icache i).dev = ROOTDEV
      from sees.dev]

theorem iput_waits (taken : (s.icache j).lock ≠ none) : iput p j s = .blocked := by
  unfold iput acquiresleep
  rw [bind_def, bind_def]
  dsimp only [Exec.get]
  rw [if_neg taken]
  rfl

/-- `iput` of a reference that is not the last one to an inode that is in memory. -/
theorem iput_keeps (unlocked : (s.icache j).lock = none)
    (more : ¬ ((s.icache j).valid = true ∧ (s.icache j).ref = 1)) :
    ∃ ip, iput p j s = .ok ((), s.setSlot j ip) := by
  have spec : Spec Stops.nothing (iput p j) s fun _ s' => ∃ ip, s' = s.setSlot j ip := by
    unfold iput acquiresleep releasesleep
    rw [bind_assoc]
    refine Spec.bind_get ?_
    rw [if_pos unlocked, setInode_eq]
    refine Spec.bind_modify (Spec.bind_get ?_)
    rw [setSlot_self, Exec.when, if_neg (fun last => more ⟨last.1, last.2.2⟩), pure_bind,
      setInode_eq]
    refine Spec.bind_modify ?_
    rw [setInode_eq]
    refine Spec.modify ?_
    rw [setSlot_setSlot, setSlot_setSlot]
    exact ⟨_, rfl⟩
  obtain ⟨_, _, returned, ip, rfl⟩ := spec.total
  exact ⟨ip, returned⟩

/-- What `dirlink` does with a name that is there. -/
theorem OpenDir.refuses (opened : OpenDir s i P) (matching : Matching s.world) {k X : Nat}
    (found : scan name (s.world.entries P) = some (k, X)) :
    ((∃ j, slotFor s.icache ROOTDEV X = some j ∧ (s.icache j).lock = none) →
      ∃ s', dirlink p i name I s = .ok (-1, s') ∧ s'.blocks = s.blocks ∧ s'.dinodes = s.dinodes) ∧
    ((∀ j, slotFor s.icache ROOTDEV X = some j → (s.icache j).lock ≠ none) →
      ∀ result, dirlink p i name I s ≠ .ok result) := by
  obtain ⟨cache, off, looked⟩ := @opened.finds _ _ _ name matching k X found
  have link : dirlink p i name I s = (iget ROOTDEV X >>= fun j => iput p j >>= fun _ => pure (-1))
    (s.putCache cache) := by
    unfold dirlink
    rw [bind_def, looked, bind_def, bind_def]
    cases iget ROOTDEV X (s.putCache cache) <;> rfl
  cases slot : slotFor s.icache ROOTDEV X with
  | none =>
    refine ⟨?_, fun _ result returned => ?_⟩
    · rintro ⟨j, impossible, _⟩
      exact (Option.some_ne_none j impossible.symm).elim
    · grind [bind_def, iget_full, State.putCache]
  | some j =>
    obtain ⟨ip, got, _, lock, more⟩ := @iget_slot (s.putCache cache) _ _ j slot
    rw [link, bind_def, got]
    dsimp only
    rw [bind_def]
    refine ⟨?_, fun locked result returned => ?_⟩
    · rintro ⟨_, same, unlocked⟩
      rw [← Option.some.inj same] at unlocked
      obtain ⟨ip', put⟩ := @iput_keeps ((s.putCache cache).setSlot j ip) p j
        (by rw [setSlot_self, lock]; exact unlocked) (by rw [setSlot_self]; exact more)
      rw [put]
      exact ⟨_, rfl, rfl, rfl⟩
    · rw [iput_waits (by rw [setSlot_self, lock]; exact locked j rfl)] at returned
      cases returned

theorem Written.sameSlots {din : Dinode} (written : Written s s' i din) : SameSlots s s' := by
  intro j
  by_cases here : j = i
  · rw [here, written.slot]
    exact ⟨rfl, rfl, rfl⟩
  · rw [written.others j here]
    exact ⟨rfl, rfl, rfl⟩

/-- A directory to which an entry was written. -/
theorem OpenDir.stored {dirty : Fin NINODE → Bool} {k : Nat} {src : List UInt8}
    (opened : OpenDir s i P) (sane : Sane dirty s') (intact : dirty i = false)
    (length : src.length = DIRENTSIZE) (stored : Stored s s' i (DIRENTSIZE * k) src) :
    OpenDir s' i P ∧ (s'.dinodes P).size = max (s.dinodes P).size
      (DIRENTSIZE * k + DIRENTSIZE) := by
  have sees := opened.sees
  obtain ⟨din, fields⟩ := stored.dinode sees
  have slot := stored.written.slot
  have dir : (s'.dinodes P).type = .dir := by
    rw [fields]
    exact opened.dir
  have size : (s'.dinodes P).size = max (s.dinodes P).size (DIRENTSIZE * k + DIRENTSIZE) := by
    rw [din, stored.din, sees.din, length]
  refine ⟨⟨⟨dirty, sane, intact⟩, ⟨?_, ?_, ?_, din.symm, ?_, ?_⟩, dir, ?_⟩, size⟩
  · rw [slot]
    exact sees.used
  · rw [slot]
    exact sees.valid
  · rw [slot]
    exact sees.inum
  · rw [slot]
    exact sees.dev
  · rw [dir]
    exact Itype.noConfusion
  · rw [size, ← Nat.mul_succ]
    rcases Nat.le_total (s.dinodes P).size (DIRENTSIZE * (k + 1)) with le | le
    · grind
    · rw [Nat.max_eq_left le]
      exact opened.whole

/-- The directory grows by one entry, unless one was free. -/
theorem max_firstFree {size : Nat} (all : size = DIRENTSIZE * ents.length) :
    max size (DIRENTSIZE * firstFree ents + DIRENTSIZE) =
      if ∃ de ∈ ents, de.inum = 0 then size else size + DIRENTSIZE := by
  split
  · rename_i free
    obtain ⟨de, member, zero⟩ := free
    have below : firstFree ents < ents.length := List.findIdx_lt_length_of_exists
      ⟨de, member, by simpa using zero⟩
    grind
  · rename_i used
    have last : firstFree ents = ents.length := by
      refine List.findIdx_eq_length.mpr fun de member => ?_
      exact decide_eq_false fun zero => used ⟨de, member, zero⟩
    grind

theorem OpenDir.inserted (opened : OpenDir s i P) (opened' : OpenDir s' i P)
    (matching : Matching s.world) (nonzero : I ≠ 0) (slots : SameSlots s s')
    (linked : Linked s.world P name I s'.world)
    (cached : namecacheLookup s'.namecache ROOTDEV P name = I)
    (size : (s'.dinodes P).size = if ∃ de ∈ s.world.entries P, de.inum = 0 then (s.dinodes P).size
      else (s.dinodes P).size + DIRENTSIZE) : Inserted s s' i P name I := by
  have matching' := linked.matching nonzero matching
  have entries : s'.world.entries P =
      putEntry (s.world.entries P) (firstFree (s.world.entries P)) (newEntry name I) := by
    obtain ⟨newSize, addrs, world⟩ := linked.eq
    rw [world]
    exact Function.update_self _ _ _
  refine ⟨linked.absent, cached, ?_, fun other apart => ?_, fun k de there used => ?_, size⟩
  · rw [entries, scan_put_self linked.absent nonzero]
  · rw [inumFound, inumFound, opened'.looks, opened.looks]
    have icache : referred s'.icache = referred s.icache := by
      funext found
      cases found with
      | none => rfl
      | some found => simp only [referred, slots.slotFor]
    rw [icache]
    refine inumFound_eq ?_
    rw [Option.map_map, Option.map_map]
    grind [State.world, World.lookup, Matching.lookup_inum, scan_put_apart, Linked.absent]
  · rw [entries, getElem?_putEntry _ (firstFree_le _), if_neg (ne_firstFree there used), there]

/-- `dirlink` adds a name that is not there, if the disk has the blocks. -/
theorem OpenDir.inserts (opened : OpenDir s i P) (matching : Matching s.world)
    (absent : scan name (s.world.entries P) = none) (nonzero : I ≠ 0) (fits : I < 2 ^ 16)
    (below : (s.dinodes P).size < MAXFILE * BSIZE)
    (room : s.RoomFor (s.dinodes P).size (DIRENTSIZE * firstFree (s.world.entries P)) DIRENTSIZE) :
    Spec Stops.nothing (dirlink p i name I) s fun r s' => r = 0 ∧ Inserted s s' i P name I := by
  obtain ⟨miss, looked⟩ := @opened.misses _ _ _ name matching absent
  obtain ⟨dirty, sane, intact⟩ := opened.sane
  have sees := opened.sees
  have dir : (s.dinodes P).type = .dir := opened.dir
  have size := opened.size
  rw [sees.din] at size
  have length := dirent_bytes_length I name
  have start : DIRENTSIZE * firstFree (s.world.entries P) ≤ (s.dinodes P).size := by
    rw [size]
    exact Nat.mul_le_mul_left _ (firstFree_le _)
  refine Spec.bind (Spec.of_eq looked) ?_
  rintro found s1 ⟨rfl, same1⟩
  rw [same1]
  refine Spec.bind_get ?_
  rw [opened.all_offsets]
  refine Spec.bind (emptySlot_step opened (Nat.zero_add _)) ?_
  rintro off s2 ⟨same2, rfl⟩
  rw [same2, Nat.zero_add, List.drop_zero]
  refine Spec.bind (writei_takes sane sees.used sees.valid intact ?_ ?_ fun lacking => ?_) ?_
  · rw [sees.din, dir]
    exact Itype.noConfusion
  · rw [sees.din, length]
    simp only [writeRefused, DIRENTSIZE, DIRSIZ, MAXFILE, NDIRECT, NINDIRECT,
      BSIZE] at size start below ⊢
    omega
  · rw [sees.din, length] at lacking
    exact lacking room
  rintro n s3 ⟨rfl, sane3, stored, _⟩
  rw [length, if_neg (fun short => short rfl)]
  obtain ⟨opened3, size3⟩ := opened.stored sane3 intact length stored
  obtain ⟨newSize, addrs, world3⟩ := stored.world_dir sane sees dir start length
  rw [Dirent.ofBytes_bytes _ fits] at world3
  refine Spec.bind (Spec.of_eq (cacheName_eq opened3.sees name I)) ?_
  rintro _ s4 ⟨_, rfl⟩
  have opened4 := opened3.putCache (namecacheAdd s3.namecache ROOTDEV P name I)
  have slots : SameSlots s (s3.putCache (namecacheAdd s3.namecache ROOTDEV P name I)) :=
    stored.written.sameSlots
  have linked : Linked s.world P name I (s3.putCache (namecacheAdd s3.namecache ROOTDEV P
    name I)).world := by
    refine ⟨opened.dir, miss, absent, newSize, addrs, ?_⟩
    rw [newEntry, ← world3]
    rfl
  have cached : namecacheLookup (s3.putCache (namecacheAdd s3.namecache ROOTDEV P name I)).namecache
    ROOTDEV P name = I :=
    namecacheLookup_add _ _ _ _ _
  refine Spec.pure ⟨rfl, opened.inserted opened4 matching nonzero slots linked cached ?_⟩
  rw [← max_firstFree size]
  exact size3

/-- The law holds unless the name is there and `iget` has no slot for its inode, or gives one
whose lock is held: `iput` then waits for it, for ever if `dirlink`'s caller is the holder. -/
theorem dirlink_insert_law (opened : OpenDir s i P) (matching : Matching s.world) (nonzero : I ≠ 0)
    (fits : I < 2 ^ 16) (below : (s.dinodes P).size < MAXFILE * BSIZE)
    (room : s.RoomFor (s.dinodes P).size (DIRENTSIZE * firstFree (s.world.entries P)) DIRENTSIZE) :
    InsertLaw p i P name I s ↔ ∀ k X, scan name (s.world.entries P) = some (k, X) →
      ∃ j, slotFor s.icache ROOTDEV X = some j ∧ (s.icache j).lock = none := by
  cases found : scan name (s.world.entries P) with
  | none =>
    refine ⟨fun _ k X impossible => (Option.some_ne_none (k, X) impossible.symm).elim, fun _ => ?_⟩
    obtain ⟨r, final, returned, rfl, inserted⟩ :=
      (@OpenDir.inserts s p i P I name opened matching found nonzero fits below room).total
    refine ⟨fun s' again => ?_, fun s' again => ?_, ⟨fun ⟨s', again⟩ => ?_, fun there =>
      (there found).elim⟩, ⟨fun _ => found, fun _ => ⟨final, returned⟩⟩⟩
    · rw [returned] at again
      cases again
      exact inserted
    · rw [returned] at again
      cases again
    · rw [returned] at again
      cases again
  | some entry =>
    obtain ⟨k, X⟩ := entry
    obtain ⟨fails, stops⟩ := @OpenDir.refuses s p i P I name opened matching k X found
    constructor
    · rintro law k' X' same
      cases same
      obtain ⟨s', returned⟩ := law.refuses.mpr (by rw [found]; exact Option.some_ne_none _)
      by_contra none
      exact stops (fun j slot unlocked => none ⟨j, slot, unlocked⟩) _ returned
    · intro free
      obtain ⟨final, returned, blocks, dinodes⟩ := fails (free k X rfl)
      refine ⟨fun s' again => ?_, fun s' again => ?_, ⟨fun _ => ?_, fun _ => ⟨final, returned⟩⟩,
        ⟨fun ⟨s', again⟩ => ?_, fun absent => ?_⟩⟩
      · rw [returned] at again
        cases again
      · rw [returned] at again
        cases again
        exact ⟨blocks, dinodes⟩
      · rw [found]
        exact Option.some_ne_none _
      · rw [returned] at again
        cases again
      · rw [found] at absent
        cases absent

/-- The root directory has room for one more entry. -/
def roomForOne (s : State) : Bool :=
  decide ((s.dinodes ROOTINO).size < MAXFILE * BSIZE ∧
    s.RoomFor (s.dinodes ROOTINO).size (DIRENTSIZE * firstFree (s.world.entries ROOTINO))
    DIRENTSIZE)

theorem dirlink_insert_law_new :
    ∃ i s s', OpenDir s i ROOTINO ∧ dirlink 0 i [98] 7 s = .ok (0, s') ∧
    Inserted s s' i ROOTINO [98] 7 := by
  have returns : (rootAfter [] fun _ s =>
      roomForOne s && decide (scan [98] (s.world.entries ROOTINO) = none)).isSome =
        true := by decide +kernel
  obtain ⟨⟨i, s⟩, ready⟩ := Option.isSome_iff_exists.mp returns
  obtain ⟨opened, matching, fine⟩ := rootAfter_spec ready
  rw [Bool.and_eq_true, decide_eq_true_eq, roomForOne, decide_eq_true_eq] at fine
  obtain ⟨⟨below, room⟩, absent⟩ := fine
  have law : InsertLaw 0 i ROOTINO [98] 7 s :=
    (dirlink_insert_law opened matching (by decide) (by decide) below room).mpr fun k X found => by
      rw [absent] at found
      cases found
  obtain ⟨s', returned⟩ := law.accepts.mpr absent
  exact ⟨i, s, s', opened, returned, law.adds s' returned⟩

/-- `dirlink` of "." in a locked directory waits for the lock of that directory. -/
theorem dirlink_dot_waits : ∃ i s, OpenDir s i ROOTINO ∧ Matching s.world ∧ roomForOne s = true ∧
    dirlink 0 i [46] 7 s = .blocked ∧ ¬ InsertLaw 0 i ROOTINO [46] 7 s := by
  have returns : (rootAfter [] fun i s =>
      (roomForOne s && decide (scan [46] (s.world.entries ROOTINO) ≠ none)) &&
      match dirlink 0 i [46] 7 s with
      | .blocked => true
      | _ => false).isSome = true := by decide +kernel
  obtain ⟨⟨i, s⟩, ready⟩ := Option.isSome_iff_exists.mp returns
  obtain ⟨opened, matching, fine⟩ := rootAfter_spec ready
  rw [Bool.and_eq_true, Bool.and_eq_true, decide_eq_true_eq] at fine
  obtain ⟨⟨room, there⟩, blocked⟩ := fine
  have waits : dirlink 0 i [46] 7 s = .blocked := by
    split at blocked
    · assumption
    · cases blocked
  refine ⟨i, s, opened, matching, room, waits, fun law => ?_⟩
  obtain ⟨s', returned⟩ := law.refuses.mpr there
  rw [waits] at returned
  cases returned

end Insertion

end Xv6.Fs
