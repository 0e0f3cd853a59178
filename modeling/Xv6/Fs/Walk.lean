import Xv6.Fs.Midway

/- dirlookup, dirlink and namex do to the world what `Lookup`, `Linked` and `Names` say. -/
namespace Xv6.Fs

open Exec hiding panic
open Namecache CString

section Scan

variable {n m room : Nat}

theorem offsets_eq {size : Nat} (whole : DIRENTSIZE ∣ size) (m : Nat) :
    offsets (DIRENTSIZE * m) size =
      (List.range' m (size / DIRENTSIZE - m)).map fun k => DIRENTSIZE * k := by
  obtain ⟨n, rfl⟩ := whole
  have count : (DIRENTSIZE * n - DIRENTSIZE * m + (DIRENTSIZE - 1)) / DIRENTSIZE =
      DIRENTSIZE * n / DIRENTSIZE - m := by
    simp only [DIRENTSIZE, DIRSIZ]
    omega
  rw [offsets, count, List.range'_eq_map_range, List.map_map]
  refine List.map_congr_left fun k _ => ?_
  simp only [Function.comp_apply, Nat.mul_add]

variable {allowed : Stops} {c : Outside} {p : Fin NPROC} {held : List (Fin NINODE × Nat)}
  {locked : List (Fin NINODE)} {s : State} {i : Fin NINODE} {P : Nat}

theorem Sees.entries (sees : Sees s i P) (dir : s.world.type P = .dir) :
    s.world.entries P = entriesOf s.blocks (s.icache i).din := by
  change dirEntries _ _ = _
  rw [dirEntries, if_pos (show (s.dinodes P).type = .dir from dir), sees.din]

/-- The slot `i` has a copy of the directory `P`, and its size is a number of entries. -/
structure OpenDir (s : State) (i : Fin NINODE) (P : Nat) : Prop where
  sane : ∃ dirty, Sane dirty s ∧ dirty i = false
  sees : Sees s i P
  dir : s.world.type P = .dir
  whole : DIRENTSIZE ∣ (s.dinodes P).size

theorem Midway.opened (mid : Midway c p held locked s) (sees : Sees s i P)
    (dir : s.world.type P = .dir) :
    OpenDir s i P :=
  ⟨⟨clean, mid.sane, rfl⟩, sees, dir, mid.whole P dir⟩

theorem OpenDir.size (opened : OpenDir s i P) :
    (s.icache i).din.size = DIRENTSIZE * (s.world.entries P).length := by
  have whole := opened.whole
  rw [← opened.sees.din] at whole
  rw [opened.sees.entries opened.dir, entriesOf_length, Nat.mul_div_cancel' whole]

/-- The loops over a directory go through its entries. -/
theorem OpenDir.offsets (opened : OpenDir s i P) (m : Nat) :
    Fs.offsets (DIRENTSIZE * m) (s.icache i).din.size =
      (List.range' m ((s.world.entries P).length - m)).map fun k => DIRENTSIZE * k := by
  have size := opened.size
  rw [offsets_eq (by rw [size]; exact Nat.dvd_mul_right _ _), size, Nat.mul_div_cancel_left _
    (by decide)]

theorem OpenDir.all_offsets (opened : OpenDir s i P) : Fs.offsets 0 (s.icache i).din.size =
    (List.range' 0 (s.world.entries P).length).map fun k => DIRENTSIZE * k := by
  have all := opened.offsets 0
  rwa [Nat.mul_zero, Nat.sub_zero] at all

theorem OpenDir.readDirent (opened : OpenDir s i P) (message : String) {k : Nat}
    (inside : k < (s.world.entries P).length) :
    Spec allowed (readDirent message i (DIRENTSIZE * k)) s fun de s' => s' = s ∧
      (s.world.entries P)[k]? = some de := by
  obtain ⟨dirty, sane, intact⟩ := opened.sane
  have sees := opened.sees
  have dir : (s.dinodes P).type = .dir := opened.dir
  have fits : DIRENTSIZE * k + DIRENTSIZE ≤ (s.icache i).din.size := by
    rw [opened.size, ← Nat.mul_succ]
    exact Nat.mul_le_mul_left _ inside
  have plain : (s.icache i).din.type ≠ .dev := by
    rw [sees.din, dir]
    exact Itype.noConfusion
  refine Spec.bind (readi_spec sane sees.used sees.valid intact _ _) ?_
  rintro result _ ⟨rfl, content⟩
  rw [content plain fits]
  refine Spec.pure ⟨rfl, ?_⟩
  rw [sees.entries dir] at inside ⊢
  rw [entriesOf_length] at inside
  exact entriesOf_getElem? _ _ inside

/-- The state with another name cache. -/
def State.putCache (s : State) (cache : Cache) : State := { s with namecache := cache }

theorem Sane.putCache {dirty : Fin NINODE → Bool} (sane : Sane dirty s) (cache : Cache) :
    Sane dirty (s.putCache cache) := by
  refine ⟨fun j => ?_, sane.owned, sane.sized, sane.numbered⟩
  have slot := sane.slots j
  exact ⟨slot.device, slot.alone, slot.coherent, slot.ahead, slot.typed, slot.held, slot.locked⟩

theorem Midway.putCache (mid : Midway c p held locked s) (cache : Cache) :
    Midway c p held locked (s.putCache cache) :=
  ⟨⟨mid.sane.putCache cache, mid.tables, mid.counted, mid.names, mid.steady, mid.locks, mid.kinds,
    mid.alive, mid.whole⟩, mid.anchored⟩

theorem OpenDir.putCache (opened : OpenDir s i P) (cache : Cache) :
    OpenDir (s.putCache cache) i P := by
  obtain ⟨dirty, sane, intact⟩ := opened.sane
  have sees := opened.sees
  exact ⟨⟨dirty, sane.putCache cache, intact⟩,
    ⟨sees.used, sees.valid, sees.inum, sees.din, sees.dev, sees.allocated⟩, opened.dir,
    opened.whole⟩

theorem cacheName_eq (sees : Sees s i P) (name : List UInt8) (I : Nat) :
    cacheName i name I s = .ok ((), s.putCache (namecacheAdd s.namecache ROOTDEV P name I)) := by
  rw [← sees.dev, ← sees.inum]
  rfl

theorem cacheName_step (mid : Midway c p held locked s) (sees : Sees s i P) (name : List UInt8)
    (I : Nat) :
    Spec allowed (cacheName i name I) s fun _ s' => Midway c p held locked s' ∧
      s'.icache = s.icache ∧ s'.world = s.world.fill P name I := by
  constructor
  rw [cacheName_eq sees]
  exact ⟨mid.putCache _, rfl, rfl⟩

/-- What `dirlookup` does with the entry that it was looking for. -/
def takeFound (i : Fin NINODE) (name : List UInt8) (I off : Nat) :
    Exec State (Option (Fin NINODE × Nat)) := do
  cacheName i name I
  let s ← get
  let ip ← iget (s.icache i).dev I
  return some (ip, off)

/-- The loop of `dirlookup` behind entry `m`. -/
theorem OpenDir.loop (opened : OpenDir s i P) (name : List UInt8)
    (rest : m + n = (s.world.entries P).length) :
    dirlookup.loop i name ((List.range' m n).map fun k => DIRENTSIZE * k) s =
      match scan name ((s.world.entries P).drop m) with
      | none => .ok (none, s)
      | some (k, I) => takeFound i name I (DIRENTSIZE * (m + k)) s := by
  induction n generalizing m with
  | zero =>
    rw [List.drop_eq_nil_of_le (by omega)]
    rfl
  | succ n ih =>
    have inside : m < (s.world.entries P).length := by omega
    obtain ⟨de, after, read, same, here⟩ := Spec.total (opened.readDirent "dirlookup read" inside)
    obtain ⟨_, equal⟩ := List.getElem?_eq_some_iff.mp here
    rw [same] at read
    rw [List.range'_succ, List.map_cons, dirlookup.loop, bind_def, read,
      List.drop_eq_getElem_cons inside, equal, scan]
    dsimp only
    -- The rest of the loop, when this entry is not the one.
    have later : dirlookup.loop i name ((List.range' (m + 1) n).map fun k => DIRENTSIZE * k) s =
        match (scan name ((s.world.entries P).drop (m + 1))).map fun found =>
        (found.1 + 1, found.2) with
        | none => .ok (none, s)
        | some (k, I) => takeFound i name I (DIRENTSIZE * (m + k)) s := by
      rw [ih (by omega)]
      cases scan name ((s.world.entries P).drop (m + 1)) with
      | none => rfl
      | some found =>
        exact congrArg (fun k => takeFound i name found.2 (DIRENTSIZE * k) s) (by omega)
    by_cases unused : de.inum = 0
    · rw [if_pos unused, if_neg (fun both => both.1 unused), later]
    · by_cases named : namecmp name de.name = 0
      · rw [if_neg unused, if_pos named, if_pos ⟨unused, named⟩]
        rfl
      · rw [if_neg unused, if_neg named, if_neg (fun both => named both.2), later]

theorem takeFound_step (roomy : c.Roomy allowed room) (few : held.length < room)
    (mid : Midway c p held locked s) (sees : Sees s i P) (name : List UInt8) (I off : Nat) :
    Spec allowed (takeFound i name I off) s fun found s' => ∃ ip, found = some (ip, off) ∧
      Midway c p ((ip, I) :: held) locked s' ∧ s'.world = s.world.fill P name I := by
  refine Spec.bind (cacheName_step mid sees name I) ?_
  rintro _ s1 ⟨mid1, icache, world⟩
  refine Spec.bind_get ?_
  rw [icache, sees.dev]
  refine Spec.bind (iget_step roomy few mid1 I) ?_
  grind [Spec.pure]

theorem dirlookup_step (roomy : c.Roomy allowed room) (few : held.length < room)
    (mid : Midway c p held locked s) (sees : Sees s i P)
    (plain : s.world.type P ≠ .dir → allowed "dirlookup not DIR") (name : List UInt8) :
    Spec allowed (dirlookup i name) s fun found s' => s.world.type P = .dir ∧
      match found with
      | none => s' = s ∧ Lookup s.world P name s'.world none
      | some (ip, off) => ∃ I k, off = DIRENTSIZE * k ∧ Midway c p ((ip, I) :: held) locked s' ∧
          Lookup s.world P name s'.world (some (I, k)) := by
  refine Spec.bind_get ?_
  dsimp only
  split
  · rename_i other
    rw [sees.din] at other
    exact Spec.panic (plain other)
  rename_i type
  rw [Decidable.not_not, sees.din] at type
  have dir : s.world.type P = .dir := type
  rw [sees.dev, sees.inum]
  split
  · rename_i hit
    refine Spec.bind (iget_step roomy few mid _) ?_
    rintro ip s1 ⟨mid1, world⟩
    refine Spec.pure ⟨dir, _, 0, rfl, mid1, ?_⟩
    rw [world]
    exact Lookup.cached rfl hit
  · rename_i missed
    have miss : namecacheLookup s.world.cache ROOTDEV P name = 0 := Decidable.not_not.mp missed
    have opened := mid.opened sees dir
    have scanned := opened.loop name (Nat.zero_add _)
    rw [← opened.all_offsets, List.drop_zero] at scanned
    cases found : scan name (s.world.entries P) with
    | none =>
      rw [found] at scanned
      constructor
      rw [scanned]
      exact ⟨dir, rfl, Lookup.missing miss found⟩
    | some entry =>
      rw [found] at scanned
      refine Spec.congr scanned (Spec.mono (takeFound_step roomy few mid sees name _ _) ?_)
      rintro _ s' ⟨ip, rfl, mid1, world⟩
      refine ⟨dir, entry.2, entry.1, by rw [Nat.zero_add], mid1, ?_⟩
      rw [world]
      exact Lookup.found miss found

/-- `dirlink` finds the first free entry behind entry `m`. -/
theorem emptySlot_step (opened : OpenDir s i P) (rest : m + n = (s.world.entries P).length) :
    Spec allowed (dirlink.emptySlot i ((List.range' m n).map fun k => DIRENTSIZE * k)) s
      fun off s' =>
      s' = s ∧ off = DIRENTSIZE * (m + firstFree ((s.world.entries P).drop m)) := by
  induction n generalizing m with
  | zero =>
    refine Spec.bind_get (Spec.pure ⟨rfl, ?_⟩)
    rw [opened.all_offsets, List.length_map, List.length_range', List.drop_eq_nil_of_le (by omega)]
    congr 1
    exact rest.symm
  | succ n ih =>
    have inside : m < (s.world.entries P).length := by omega
    refine Spec.bind (opened.readDirent _ inside) ?_
    rintro de s1 ⟨same, here⟩
    rw [same]
    obtain ⟨_, equal⟩ := List.getElem?_eq_some_iff.mp here
    rw [List.drop_eq_getElem_cons inside, equal, firstFree, List.findIdx_cons]
    split
    · rename_i free
      refine Spec.pure ⟨rfl, ?_⟩
      rw [decide_eq_true free]
      rfl
    · rename_i used
      rw [decide_eq_false used]
      refine Spec.mono (ih (by omega)) fun off s' post => ⟨post.1, ?_⟩
      grind [firstFree, Nat.add_right_comm]

theorem dirent_bytes_length (I : Nat) (name : List UInt8) :
    (Dirent.bytes ⟨I, strncpy name DIRSIZ⟩).length = DIRENTSIZE := by
  rw [Dirent.bytes, List.length_cons, List.length_cons, strncpy_length]
  rfl

/-- A write of one entry of a locked directory. -/
theorem writeEntry_step (lenient : Lenient allowed) (mid : Midway c p held locked s)
    (sees : Sees s i P) (dir : s.world.type P = .dir) {k : Nat} {src : List UInt8}
    (length : src.length = DIRENTSIZE) :
    Spec allowed (writei i src (DIRENTSIZE * k)) s fun n s' => n = DIRENTSIZE →
      k ≤ (s.world.entries P).length ∧ Midway c p held locked s' ∧
      ∃ size addrs, s'.world = (s.world.put P k (Dirent.ofBytes src)).resize P size addrs := by
  refine Spec.mono (writei_spec (lenient _ (by decide)) mid.sane sees.used sees.valid rfl src _) ?_
  rintro n s' ⟨sane, ⟨_, device | failed⟩ | ⟨_, _, start, stored⟩⟩ count
  · rw [sees.din, show (s.dinodes P).type = .dir from dir] at device
    cases device
  · rw [failed] at count
    cases count
  · have size := (mid.opened sees dir).size
    have whole := mid.whole P dir
    rw [sees.din] at start size
    have fields := stored.din
    rw [sees.din] at fields
    refine ⟨?_, mid.written sees sane stored.written (by rw [fields]) fun _ => ?_,
      stored.world_dir mid.sane sees dir start length⟩
    · grind
    · rw [fields, length, ← Nat.mul_succ]
      rcases Nat.le_total (s.dinodes P).size (DIRENTSIZE * (k + 1)) with le | le
      · grind
      · rw [Nat.max_eq_left le]
        exact whole

theorem dirlink_step (lenient : Lenient allowed) (roomy : c.Roomy allowed room)
    (few : held.length < room) (mid : Midway c p held locked s) (member : (i, P) ∈ held)
    (own : i ∈ locked) (name : List UInt8) {I : Nat} (fits : I < 2 ^ 16)
    (owns : ∀ j ∈ locked, ∃ Y, (j, Y) ∈ held)
    (waits : ∀ J k w, Lookup s.world P name w (some (J, k)) → (∃ j ∈ locked, (j, J) ∈ held) →
      allowed.waits) :
    Spec allowed (dirlink p i name I) s fun linked s' => Midway c p held locked s' ∧
      (linked = -1 ∧ s.world.type P = .dir ∧ (∃ J k w, Lookup s.world P name w (some (J, k)) ∧
        Drop (InUse c held) w J s'.world) ∨ linked = 0 ∧ Linked s.world P name I s'.world) := by
  have sees := mid.sees member own
  refine Spec.bind (dirlookup_step roomy few mid sees (fun _ => lenient _ (by decide)) name) ?_
  rintro found s1 ⟨dir, post⟩
  cases found with
  | some found =>
    obtain ⟨J, k, _, mid1, lookup⟩ := post
    refine Spec.bind (iput_step mid1 fun taken => ?_) ?_
    · obtain ⟨Y, holds⟩ := owns _ taken
      have same : Y = J :=
        (mid1.names _ (List.mem_cons_of_mem _ holds)).symm.trans (mid1.names _ List.mem_cons_self)
      exact waits J k _ lookup ⟨_, taken, same ▸ holds⟩
    grind [Spec.pure]
  | none =>
    obtain ⟨same, lookup⟩ := post
    rw [same] at lookup ⊢
    obtain ⟨_, miss, absent⟩ := lookup.of_none rfl
    refine Spec.bind_get ?_
    have opened := mid.opened sees dir
    rw [opened.all_offsets]
    refine Spec.bind (emptySlot_step opened (Nat.zero_add _)) ?_
    rintro off s2 ⟨same2, rfl⟩
    rw [same2, Nat.zero_add, List.drop_zero]
    refine Spec.bind (writeEntry_step lenient mid sees dir (dirent_bytes_length I name)) ?_
    intro n s3 wrote
    split
    · exact Spec.panic (lenient _ (by decide))
    · rename_i whole
      obtain ⟨_, mid3, size, addrs, world⟩ := wrote (Decidable.not_not.mp whole)
      refine Spec.bind (cacheName_step mid3 (mid3.sees member own) name I) ?_
      rintro _ s4 ⟨mid4, _, filled⟩
      refine Spec.pure ⟨mid4, Or.inr ⟨rfl, dir, miss, absent, size, addrs, ?_⟩⟩
      rw [filled, world, Dirent.ofBytes_bytes _ fits]
      rfl

theorem isdirempty_loop_step (mid : Midway c p held locked s) (sees : Sees s i P)
    (dir : s.world.type P = .dir) (rest : m + n = (s.world.entries P).length) :
    Spec allowed (isdirempty.loop i ((List.range' m n).map fun k => DIRENTSIZE * k)) s
      fun empty s' =>
      s' = s ∧ (empty = true → ∀ de ∈ (s.world.entries P).drop m, de.inum = 0) := by
  induction n generalizing m with
  | zero =>
    refine Spec.pure ⟨rfl, fun _ de member => ?_⟩
    grind
  | succ n ih =>
    have inside : m < (s.world.entries P).length := by omega
    refine Spec.bind ((mid.opened sees dir).readDirent _ inside) ?_
    rintro first s1 ⟨same, here⟩
    rw [same]
    obtain ⟨_, equal⟩ := List.getElem?_eq_some_iff.mp here
    rw [List.drop_eq_getElem_cons inside, equal]
    split
    · exact Spec.pure ⟨rfl, fun impossible => Bool.noConfusion impossible⟩
    · rename_i unused
      refine Spec.mono (ih (by omega)) fun empty s' post => ⟨post.1, fun all de member => ?_⟩
      rcases List.mem_cons.mp member with rfl | later
      · exact Decidable.not_not.mp unused
      · exact post.2 all de later

theorem isdirempty_step (mid : Midway c p held locked s) (sees : Sees s i P)
    (dir : s.world.type P = .dir) :
    Spec allowed (isdirempty i) s fun empty s' => s' = s ∧
      (empty = true → Empty (s.world.entries P)) := by
  refine Spec.bind_get ?_
  rw [Nat.mul_comm 2, (mid.opened sees dir).offsets 2]
  by_cases short : (s.world.entries P).length < 2
  · rw [Nat.sub_eq_zero_of_le (by omega)]
    refine Spec.pure ⟨rfl, fun _ de member => ?_⟩
    rw [List.drop_eq_nil_of_le (by omega)] at member
    cases member
  · exact isdirempty_loop_step mid sees dir (by omega)

end Scan

section Paths

variable {room : Nat}

/-- What is known of the inode where a walk stands, with the names that are left, and that the
next one is found to have a type, unless the panic of `ilock` is allowed. -/
structure Tour (allowed : Stops) (used : Nat → Prop)
    (inv : World → Nat → List (List UInt8) → Prop) : Prop where
  typed : ∀ w X names, inv w X names → w.type X = .free → allowed "ilock: no type"
  next : ∀ w X name rest w1 I k w2, inv w X (name :: rest) → w.type X = .dir →
    Lookup w X name w1 (some (I, k)) → Drop (With used I) w1 X w2 → inv w2 I rest

/-- The names that a walk leaves: `nameiparent` stops in front of the last one. -/
def leftover : Bool → List UInt8 → List (List UInt8)
  | true, name => [name]
  | false, _ => []

variable {allowed : Stops} {used : Nat → Prop} {inv : World → Nat → List (List UInt8) → Prop}
  {c : Outside} {p : Fin NPROC} {held : List (Fin NINODE × Nat)} {s : State}

/-- The slot that a walk returns, for the inode of the abstract walk. -/
def Arrives (c : Outside) (p : Fin NPROC) (held : List (Fin NINODE × Nat)) (parent : Bool)
    (inv : World → Nat → List (List UInt8) → Prop) (s : State) :
    Option (Fin NINODE × List UInt8) → Option (Nat × List UInt8) → Prop
  | none, none => Midway c p held [] s
  | some (ip, name), some (X, name') => name = name' ∧ Midway c p ((ip, X) :: held) [] s ∧
      inv s.world X (leftover parent name)
  | _, _ => False

theorem with_inUse {ip : Fin NINODE} {I : Nat} (using_ : ∀ Y, used Y → InUse c held Y) (Y : Nat)
    (use : With used I Y) : InUse c ((ip, I) :: held) Y := by
  rcases use with use | rfl
  · rcases using_ Y use with outside | ⟨h, member, same⟩
    · exact Or.inl outside
    · exact Or.inr ⟨h, List.mem_cons_of_mem _ member, same⟩
  · exact Or.inr ⟨_, List.mem_cons_self, rfl⟩

theorem namexLoop_step (roomy : c.Roomy allowed room) (few : held.length + 1 < room)
    (tour : Tour allowed used inv) (using_ : ∀ Y, used Y → InUse c held Y) (parent : Bool)
    {ip : Fin NINODE} {X : Nat} (names : List (List UInt8))
    (mid : Midway c p ((ip, X) :: held) [] s) (start : inv s.world X names) :
    Spec allowed (namexLoop p parent ip names) s fun found s' => ∃ result,
      Names used parent s.world X names s'.world result ∧ Arrives c p held parent inv s'
        found result := by
  induction names generalizing ip X s with
  | nil =>
    cases parent with
    | true =>
      refine Spec.bind (iput_step mid none_locked) ?_
      rintro _ s1 ⟨mid1, drop⟩
      exact Spec.pure ⟨none, Names.noParent rfl (drop.mono using_), mid1⟩
    | false =>
      exact Spec.pure ⟨some (X, []), Names.done rfl, rfl, mid, start⟩
  | cons name rest ih =>
    have fits : ((ip, X) :: held).length < room := few
    refine Spec.bind (ilock_step mid List.mem_cons_self none_locked
      (tour.typed _ _ _ start)) ?_
    rintro _ s1 ⟨mid1, world1, _, _⟩
    rw [← world1] at start ⊢
    refine Spec.bind_get ?_
    have sees := mid1.sees List.mem_cons_self List.mem_cons_self
    rw [sees.din]
    split
    · rename_i other
      refine Spec.bind (iunlockput_step mid1 List.not_mem_nil) ?_
      rintro _ s2 ⟨mid2, drop⟩
      exact Spec.pure ⟨none, Names.notDir other (drop.mono using_), mid2⟩
    rename_i type
    have dir : s1.world.type X = .dir := Decidable.not_not.mp type
    split
    · rename_i stops
      obtain ⟨rfl, rfl⟩ := stops
      refine Spec.bind (iunlock_step mid1 List.not_mem_nil) ?_
      rintro _ s2 ⟨mid2, world2⟩
      rw [← world2] at start dir ⊢
      exact Spec.pure ⟨some (X, name), Names.stop rfl dir, rfl, mid2, start⟩
    · rename_i goes
      refine Spec.bind (dirlookup_step roomy fits mid1 sees (fun other => (other dir).elim) name) ?_
      rintro found s2 ⟨_, post⟩
      cases found with
      | none =>
        obtain ⟨same, lookup⟩ := post
        rw [same] at lookup ⊢
        refine Spec.bind (iunlockput_step mid1 List.not_mem_nil) ?_
        rintro _ s3 ⟨mid3, drop⟩
        exact Spec.pure ⟨none, Names.missing goes dir lookup (drop.mono using_), mid3⟩
      | some found =>
        obtain ⟨I, k, _, mid2, lookup⟩ := post
        refine Spec.bind (iunlockput_step (mid2.perm (List.Perm.swap _ _ _)) List.not_mem_nil) ?_
        rintro _ s3 ⟨mid3, drop⟩
        have drops := drop.mono (with_inUse using_)
        refine Spec.mono (ih mid3 (tour.next _ _ _ _ _ _ _ _ start dir lookup drops)) ?_
        rintro final s4 ⟨result, walk, arrives⟩
        exact ⟨result, Names.next goes dir lookup drops walk, arrives⟩

/-- Where a walk of process `p` starts. -/
def Outside.start (c : Outside) (p : Fin NPROC) (path : List UInt8) : Nat :=
  if deref path = 47 then ROOTINO
  else match (c.procs p).cwd with
    | some cwd => c.inum cwd
    | none => 0

/-- The directory of a process is one of the references outside of the call; one that has
no directory waits. -/
structure Outside.Running (allowed : Stops) (c : Outside) (p : Fin NPROC) : Prop where
  refers : ∀ cwd, (c.procs p).cwd = some cwd → 0 < c.refs cwd
  idle : (c.procs p).cwd = none → allowed.waits

theorem namex_step (roomy : c.Roomy allowed room) (few : held.length + 1 < room)
    (tour : Tour allowed used inv) (using_ : ∀ Y, used Y → InUse c held Y) (path : List UInt8)
    (running : deref path ≠ 47 → c.Running allowed p) (parent : Bool) (mid : Midway c p held [] s)
    (start : inv s.world (c.start p path) (elements path)) :
    Spec allowed (namex p path parent) s fun found s' => ∃ result,
      Names used parent s.world (c.start p path) (elements path) s'.world result ∧
      Arrives c p held parent inv s' found result := by
  unfold namex
  unfold Outside.start at start ⊢
  split
  · rename_i absolute
    rw [if_pos absolute] at start
    refine Spec.bind (iget_step roomy (by omega) mid ROOTINO) ?_
    grind [namexLoop_step, elements]
  · rename_i relative
    rw [if_neg relative] at start
    refine Spec.bind_get ?_
    have procs : s.procs = c.procs := congrArg Prod.fst mid.tables
    rw [procs]
    cases known : (c.procs p).cwd with
    | none => exact Spec.wait ((running relative).idle known)
    | some cwd =>
      rw [known] at start
      refine Spec.bind (idup_step mid ((running relative).refers cwd known)) ?_
      grind [namexLoop_step, elements]

theorem nameiparent_step (roomy : c.Roomy allowed room) (few : held.length + 1 < room)
    (tour : Tour allowed used inv) (using_ : ∀ Y, used Y → InUse c held Y) (path : List UInt8)
    (running : deref path ≠ 47 → c.Running allowed p) (mid : Midway c p held [] s)
    (start : inv s.world (c.start p path) (elements path)) :
    Spec allowed (nameiparent p path) s fun found s' => ∃ result,
      Names used true s.world (c.start p path) (elements path) s'.world result ∧
      Arrives c p held true inv s' found result :=
  namex_step roomy few tour using_ path running true mid start

theorem namei_step (roomy : c.Roomy allowed room) (few : held.length + 1 < room)
    (tour : Tour allowed used inv) (using_ : ∀ Y, used Y → InUse c held Y) (path : List UInt8)
    (running : deref path ≠ 47 → c.Running allowed p) (mid : Midway c p held [] s)
    (start : inv s.world (c.start p path) (elements path)) :
    Spec allowed (namei p path) s fun found s' => match found with
      | none => Names used false s.world (c.start p path) (elements path) s'.world none ∧
          Midway c p held [] s'
      | some ip => ∃ I name,
          Names used false s.world (c.start p path) (elements path) s'.world (some (I, name)) ∧
          Midway c p ((ip, I) :: held) [] s' ∧ inv s'.world I [] := by
  refine Spec.bind (namex_step roomy few tour using_ path running false mid start) ?_
  rintro found s1 ⟨result, walk, arrives⟩
  match found, result, arrives with
  | none, none, arrives => exact ⟨walk, arrives⟩
  | some (ip, name), some (I, name'), arrives => exact ⟨I, name', walk, arrives.2⟩

end Paths

end Xv6.Fs
