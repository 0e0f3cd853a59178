import Xv6.Fs.Walk

/- create, sys_link and sys_unlink do to the world what `Creates`, `Links` and `Unlinks`
say. -/
namespace Xv6.Fs

open Exec hiding panic
open Namecache CString

/-- A walk from inode `X` of the world finds inodes with a type, or may panic. -/
def Toured (allowed : Stops) (used : Nat → Prop) (w : World) (X : Nat) (names : List (List UInt8)) :
    Prop :=
  ∃ inv, Tour allowed used inv ∧ inv w X names

section Calls

variable {allowed : Stops} {c : Outside} {p : Fin NPROC} {s : State} {P I : Nat}
  {ip dp : Fin NINODE} {held : List (Fin NINODE × Nat)} {locked : List (Fin NINODE)} {X k : Nat}
  {w : World} {path : List UInt8} {type : Itype}

theorem inUse_nil (c : Outside) (Y : Nat) (use : c.Used Y) : InUse c [] Y := Or.inl use

theorem numbered_small
    (mid : Midway c p held locked s) (allocated : s.world.type X ≠ .free) : X < 2 ^ 16 :=
  Nat.lt_trans (mid.sane.numbered X allocated).2 (by decide)

/-- The name cache knows "." or ".." of inode `X`, which is about to be made in `P`, as one
of the two inodes that `create` has locked. -/
def Tangled (w : World) (P X : Nat) : Prop :=
  namecacheLookup w.cache ROOTDEV X [46] ∈ [X, P] ∨
    namecacheLookup (w.fill X [46] X).cache ROOTDEV X [46, 46] ∈ [X, P]

/-- `create` finds none of the inodes that it has locked itself when it links inode `X`
into `P`, or may wait for ever. -/
structure Unsnarled (allowed : Stops) (new : Dinode) (w : World) (P : Nat) (name : List UInt8)
    (X : Nat) : Prop where
  dots : new.type = .dir → Tangled w P X → allowed.waits
  parent : ∀ w1 w2 J k, Begins new w P X w1 → Lookup w1 P name w2 (some (J, k)) → J ∈ [X, P] →
    allowed.waits

/-- An inode without entries is looked up in the cache only. -/
theorem Lookup.of_empty {w' : World} {name : List UInt8}
    (lookup : Lookup w P name w' (some (I, k))) (absent : scan name (w.entries P) = none) :
    namecacheLookup w.cache ROOTDEV P name = I := by
  rcases lookup.of_some rfl with ⟨_, hit, _⟩ | ⟨_, _, there⟩
  · exact hit
  · rw [absent] at there
    cases there

theorem owns_pair (ip dp : Fin NINODE) (I P : Nat) :
    ∀ j ∈ [ip, dp], ∃ Y, (j, Y) ∈ [(ip, I), (dp, P)] := by
  simp

theorem among_pair {J : Nat}
    (taken : ∃ j ∈ [ip, dp], (j, J) ∈ [(ip, I), (dp, P)]) : J ∈ [I, P] := by
  obtain ⟨j, _, member⟩ := taken
  exact List.mem_map_of_mem (f := Prod.snd) member

theorem dotdot_differs (I : Nat) :
    ¬ namecmp [46, 46] (Dirent.mk I (strncpy [46] DIRSIZ)).name = 0 := by
  change ¬ namecmp [46, 46] (strncpy [46] DIRSIZ) = 0
  decide

/-- The two entries that `create` makes in a new directory. -/
theorem create_begins (lenient : Lenient allowed) (roomy : c.Roomy allowed 3) {new din : Dinode}
    (fits : I < 2 ^ 16) (parent : P < 2 ^ 16) (fresh : Fresh new din)
    (mid : Midway c p [(ip, I), (dp, P)] [ip, dp] s) (world : s.world = w.reset I din)
    (waits : new.type = .dir → Tangled w P I → allowed.waits) :
    Spec allowed (when (new.type = .dir) do
        change dp .link
        create.dots p ip I P) s
      fun _ s' => Midway c p [(ip, I), (dp, P)] [ip, dp] s' ∧ Begins new w P I s'.world := by
  have own : ip ∈ [ip, dp] := List.mem_cons_self
  have first : (ip, I) ∈ [(ip, I), (dp, P)] := List.mem_cons_self
  refine Spec.when (fun dir => ?_) fun other => ⟨mid, din, fresh, ?_⟩
  · refine Spec.bind (change_step mid (List.mem_cons_of_mem _ List.mem_cons_self)
      (List.mem_cons_of_mem _ List.mem_cons_self) _) ?_
    rintro _ s1 ⟨mid1, world1⟩
    rw [world] at world1
    have none : s1.world.entries I = [] := by
      rw [world1]
      exact Function.update_self _ _ _
    refine Spec.bind (dirlink_step lenient roomy (by simp) mid1 first own [46] fits
      (owns_pair ip dp I P) fun J k _ lookup taken => ?_) ?_
    · refine waits dir (Or.inl ?_)
      have hit := lookup.of_empty (by rw [none]; rfl)
      rw [world1] at hit
      change namecacheLookup w.cache ROOTDEV I [46] = J at hit
      rw [hit]
      exact among_pair taken
    rintro dot s2 ⟨mid2, ⟨rfl, _⟩ | ⟨rfl, linked⟩⟩
    · exact Spec.panic (lenient _ (by decide))
    refine Spec.bind (dirlink_step lenient roomy (by simp) mid2 first own [46, 46] parent
      (owns_pair ip dp I P) fun J k _ lookup taken => ?_) ?_
    · refine waits dir (Or.inr ?_)
      obtain ⟨size, addrs, world2⟩ := linked.eq
      have one : s2.world.entries I = [⟨I, strncpy [46] DIRSIZ⟩] := by
        rw [world2]
        change Function.update s1.world.entries I _ I = _
        rw [Function.update_self, none]
        rfl
      have hit := lookup.of_empty (by
        rw [one, scan, if_neg (fun both => dotdot_differs I both.2)]
        rfl)
      rw [world2, world1] at hit
      change namecacheLookup (w.fill I [46] I).cache ROOTDEV I [46, 46] = J at hit
      rw [hit]
      exact among_pair taken
    rintro dotdot s3 ⟨mid3, ⟨rfl, _⟩ | ⟨rfl, linked2⟩⟩
    · exact Spec.when (fun _ => Spec.panic (lenient _ (by decide)))
        fun impossible => (impossible (by decide)).elim
    refine Spec.when (fun impossible => absurd impossible (by decide)) fun _ =>
      ⟨mid3, din, fresh, ?_⟩
    grind
  · rw [if_neg other]
    exact world

/-- The inode that `ialloc` makes for the process. -/
def Outside.fresh (c : Outside) (p : Fin NPROC) (type : Itype) : Dinode :=
  newDinode type (c.procs p).uid (c.procs p).gid

theorem create_step (lenient : Lenient allowed) (roomy : c.Roomy allowed 3)
    (running : c.Running allowed p) (typed : type ≠ .free) (major minor : Int)
    (mid : Midway c p [] [] s)
    (toured : Toured allowed c.Used s.world (c.start p path) (elements path))
    (waits : ∀ w P name X, Names c.Used true s.world (c.start p path) (elements path) w
      (some (P, name)) → Lookup w P name w none → w.vacant = some X →
      Unsnarled allowed (c.fresh p type) w P name X) :
    Spec allowed (create p path type major minor) s fun found s' => match found with
      | none => Creates c.Used (c.fresh p type) s.world (c.start p path) (elements path)
          s'.world none ∧
          Midway c p [] [] s'
      | some ip => ∃ I, Creates c.Used (c.fresh p type) s.world (c.start p path) (elements path)
          s'.world (some I) ∧
          Midway c p [(ip, I)] [ip] s' ∧ s'.world.type I = type := by
  obtain ⟨inv, tour, start⟩ := toured
  refine Spec.bind (nameiparent_step roomy (by simp) tour (inUse_nil c) path (fun _ => running)
    mid start) ?_
  rintro found s1 ⟨result, walk, arrives⟩
  match found, result, arrives with
  | none, none, arrives => exact Spec.pure ⟨Creates.lost walk, arrives⟩
  | some (dp, name), some (P, _), ⟨rfl, mid1, known⟩ =>
    refine Spec.bind (ilock_step mid1 List.mem_cons_self none_locked
      (tour.typed _ _ _ known)) ?_
    rintro _ s2 ⟨mid2, world2, _, _⟩
    rw [← world2] at walk known
    refine Spec.bind (dirlookup_step roomy (by simp) mid2
      (mid2.sees List.mem_cons_self List.mem_cons_self) (fun _ => lenient _ (by decide)) name) ?_
    rintro lookedUp s3 ⟨dir, post⟩
    cases lookedUp with
    | some lookedUp =>
      obtain ⟨I, k, _, mid3, lookup⟩ := post
      refine Spec.bind (iunlockput_step (mid3.perm (List.Perm.swap _ _ _)) List.not_mem_nil) ?_
      rintro _ s4 ⟨mid4, drop⟩
      have drops := drop.mono (with_inUse (inUse_nil c))
      have known4 := tour.next _ _ _ _ _ _ _ _ known dir lookup drops
      refine Spec.bind (ilock_step mid4 List.mem_cons_self none_locked
        (tour.typed _ _ _ known4)) ?_
      rintro _ s5 ⟨mid5, world5, _, _⟩
      rw [← world5] at drops
      refine Spec.bind_get ?_
      rw [(mid5.sees List.mem_cons_self List.mem_cons_self).din]
      split
      · rename_i file
        exact Spec.pure ⟨I, Creates.opened walk dir lookup drops file, mid5,
          file.2.trans file.1.symm⟩
      · refine Spec.bind (iunlockput_step mid5 List.not_mem_nil) ?_
        rintro _ s6 ⟨mid6, last⟩
        exact Spec.pure ⟨Creates.refused walk dir lookup drops (last.mono (inUse_nil c)), mid6⟩
    | none =>
      obtain ⟨same, lookup⟩ := post
      rw [same] at lookup ⊢
      refine ialloc_step lenient roomy (by simp) mid2 typed
        fun ip I s5 vacant mid5 apart world5 _ => ?_
      obtain ⟨_, below, _⟩ := vacant_spec vacant
      refine Spec.bind (change_step mid5 List.mem_cons_self List.mem_cons_self _) ?_
      rintro _ s6 ⟨mid6, world6⟩
      have procs : s2.procs = c.procs := congrArg Prod.fst mid2.tables
      have begun : s6.world = s2.world.reset I ((Change.create major minor).apply
        (c.fresh p type)) := by
        rw [world6, world5, procs]
        simp only [World.change, World.reset, Function.update_self, Function.update_idem]
        rfl
      refine Spec.bind_get ?_
      rw [(mid6.sees List.mem_cons_self List.mem_cons_self).inum,
        (mid6.sees (List.mem_cons_of_mem _ List.mem_cons_self)
          (List.mem_cons_of_mem _ List.mem_cons_self)).inum]
      have fits : I < 2 ^ 16 := Nat.lt_trans below (by decide)
      have parent : P < 2 ^ 16 := numbered_small mid2 (by rw [dir]; exact Itype.noConfusion)
      have unsnarled := waits _ P name I walk lookup vacant
      have fresh : Fresh (c.fresh p type) ((Change.create major minor).apply (c.fresh p type)) :=
        ⟨rfl, rfl, rfl, rfl, rfl⟩
      refine Spec.bind (create_begins lenient roomy fits parent fresh mid6 begun unsnarled.dots) ?_
      rintro _ s7 ⟨mid7, begins⟩
      refine Spec.bind (dirlink_step lenient roomy (by simp) mid7
        (List.mem_cons_of_mem _ List.mem_cons_self)
        (List.mem_cons_of_mem _ List.mem_cons_self) name fits (owns_pair ip dp I P) ?_) ?_
      · exact fun J k w found taken => unsnarled.parent _ w J k begins found (among_pair taken)
      rintro linked s8 ⟨mid8, ⟨rfl, _⟩ | ⟨rfl, links⟩⟩
      · exact Spec.panic (lenient _ (by decide))
      have swapped := (mid8.perm (List.Perm.swap _ _ _)).relock fun j =>
        (List.Perm.swap ip dp []).mem_iff
      refine Spec.bind (iunlockput_step swapped ?_) ?_
      · grind
      rintro _ s9 ⟨mid9, drop⟩
      have drops := drop.mono (with_inUse (inUse_nil c))
      refine Spec.pure ⟨I, Creates.made walk dir lookup vacant begins links drops, mid9, ?_⟩
      rw [drops.type_used (Or.inr rfl), links.type, begins.type, if_pos rfl]
      rfl

/-- The error path of `sys_link` takes the link back. -/
theorem link_bad_step (mid : Midway c p [(ip, I)] [] s) (allocated : s.world.type I ≠ .free) :
    Spec allowed (sysLink.bad p ip) s fun r s' => r = -1 ∧ Midway c p [] [] s' ∧
      Drop c.Used (s.world.change I .unlink) I s'.world := by
  refine Spec.bind (ilock_step mid List.mem_cons_self none_locked
        fun free => (allocated free).elim) ?_
  rintro _ s1 ⟨mid1, world1, _, _⟩
  refine Spec.bind (change_step mid1 List.mem_cons_self List.mem_cons_self _) ?_
  rintro _ s2 ⟨mid2, world2⟩
  refine Spec.bind (iunlockput_step mid2 List.not_mem_nil) ?_
  rintro _ s3 ⟨mid3, drop⟩
  refine Spec.pure ⟨rfl, mid3, ?_⟩
  grind [Drop.mono, inUse_nil]

theorem link_step (lenient : Lenient allowed) (roomy : c.Roomy allowed 3)
    (running : c.Running allowed p) {old new : List UInt8} (mid : Midway c p [] [] s)
    (toured : Toured allowed c.Used s.world (c.start p old) (elements old))
    (again : ∀ w I name, Names c.Used false s.world (c.start p old) (elements old) w
      (some (I, name)) → w.type I ≠ .dir → w.type I ≠ .free → Toured allowed (With c.Used I)
      (w.change I .link) (c.start p new) (elements new))
    (waits : ∀ w I name w1 P last w2 k, Names c.Used false s.world (c.start p old) (elements old) w
      (some (I, name)) → w.type I ≠ .dir → w.type I ≠ .free → Names (With c.Used I) true
      (w.change I .link) (c.start p new) (elements new) w1 (some (P, last)) →
      Lookup w1 P last w2 (some (P, k)) → allowed.waits) :
    Spec allowed (sysLink p old new) s fun r s' => Midway c p [] [] s' ∧
      Links c.Used s.world (c.start p old) (elements old) (c.start p new) (elements new)
        s'.world r := by
  obtain ⟨inv, tour, start⟩ := toured
  refine Spec.bind (namei_step roomy (by simp) tour (inUse_nil c) old (fun _ => running)
    mid start) ?_
  intro found s1 post
  cases found with
  | none => exact Spec.pure ⟨post.2, Links.lost post.1⟩
  | some ip =>
    obtain ⟨I, name, walk, mid1, known⟩ := post
    refine Spec.bind (ilock_step mid1 List.mem_cons_self none_locked
      (tour.typed _ _ _ known)) ?_
    rintro _ s2 ⟨mid2, world2, _, allocated⟩
    rw [← world2] at walk allocated
    refine Spec.bind_get ?_
    rw [(mid2.sees List.mem_cons_self List.mem_cons_self).din]
    split
    · rename_i dir
      refine Spec.bind (iunlockput_step mid2 List.not_mem_nil) ?_
      rintro _ s3 ⟨mid3, drop⟩
      exact Spec.pure ⟨mid3, Links.directory walk dir (drop.mono (inUse_nil c))⟩
    rename_i other
    refine Spec.bind (change_step mid2 List.mem_cons_self List.mem_cons_self _) ?_
    rintro _ s3 ⟨mid3, world3⟩
    refine Spec.bind (iunlock_step mid3 List.not_mem_nil) ?_
    rintro _ s4 ⟨mid4, world4⟩
    have counted : s4.world = s2.world.change I .link := world4.trans world3
    obtain ⟨inv2, tour2, start2⟩ := again _ I name walk other allocated
    rw [← counted] at start2
    refine Spec.bind (nameiparent_step roomy (by simp) tour2 (with_inUse (inUse_nil c)) new
      (fun _ => running) mid4 start2) ?_
    rintro found s5 ⟨result, second, arrives⟩
    have still : s5.world.type I ≠ .free := by
      rw [second.type_used (Or.inr rfl), counted, type_change]
      exact allocated
    rw [counted] at second
    match found, result, arrives with
    | none, none, arrives =>
      refine Spec.mono (link_bad_step arrives still) ?_
      rintro r s6 ⟨rfl, mid6, drop⟩
      exact ⟨mid6, Links.noParent walk other allocated second drop⟩
    | some (dp, last), some (P, _), ⟨rfl, mid5, known5⟩ =>
      refine Spec.bind (ilock_step mid5 List.mem_cons_self
        none_locked (tour2.typed _ _ _ known5)) ?_
      rintro _ s6 ⟨mid6, world6, _, _⟩
      rw [← world6] at second still
      refine Spec.bind_get ?_
      have held : (ip, I) ∈ [(dp, P), (ip, I)] := List.mem_cons_of_mem _ List.mem_cons_self
      have dev : (s6.icache ip).dev = ROOTDEV := (mid6.sane.slots ip).device (mid6.ref held)
      have inum : (s6.icache ip).inum = I := mid6.names _ held
      have sees := mid6.sees List.mem_cons_self List.mem_cons_self
      rw [sees.dev, dev, inum, if_neg (fun differ => differ rfl)]
      refine Spec.bind (dirlink_step lenient roomy (by simp) mid6 List.mem_cons_self
        List.mem_cons_self last (numbered_small mid6 still) ?_ ?_) ?_
      · simp
      · rintro J k w lookup ⟨j, taken, holds⟩
        rw [List.mem_singleton.mp taken] at holds
        have same : J = P := (mid6.names _ holds).symm.trans sees.inum
        rw [same] at lookup
        exact waits _ I name _ P last w k walk other allocated second lookup
      rintro linked s7 ⟨mid7, ⟨rfl, dir, J, k, w, lookup, dropFound⟩ | ⟨rfl, links⟩⟩
      · refine Spec.bind (iunlockput_step mid7 List.not_mem_nil) ?_
        rintro _ s8 ⟨mid8, drop⟩
        have dropsFound := dropFound.mono (with_inUse (with_inUse (inUse_nil c)))
        have drops := drop.mono (with_inUse (inUse_nil c))
        have kept : s8.world.type I ≠ .free := by
          rw [drops.type_used (Or.inr rfl), dropsFound.type_used (Or.inl (Or.inr rfl)), lookup.type]
          exact still
        refine Spec.mono (link_bad_step mid8 kept) ?_
        rintro r s9 ⟨rfl, mid9, final⟩
        exact ⟨mid9, Links.taken walk other allocated second dir lookup dropsFound drops final⟩
      · refine Spec.bind (iunlockput_step mid7 List.not_mem_nil) ?_
        rintro _ s8 ⟨mid8, drop⟩
        refine Spec.bind (iput_step mid8 none_locked) ?_
        rintro _ s9 ⟨mid9, final⟩
        exact Spec.pure ⟨mid9, Links.linked walk other allocated second links
          (drop.mono (with_inUse (inUse_nil c))) (final.mono (inUse_nil c))⟩

theorem invalidate_step {i : Fin NINODE} (mid : Midway c p held locked s) (sees : Sees s i X) :
    Spec allowed (sysUnlink.invalidate i) s fun _ s' => Midway c p held locked s' ∧
      s'.world = s.world.invalidate X := by
  refine Spec.modify ⟨mid.putCache _, ?_⟩
  rw [sees.dev, sees.inum]
  rfl

theorem unlink_bad_step (mid : Midway c p [(dp, P)] [dp] s) :
    Spec allowed (sysUnlink.bad p dp) s fun r s' => r = -1 ∧ Midway c p [] [] s' ∧
      Drop c.Used s.world P s'.world := by
  refine Spec.bind (iunlockput_step mid List.not_mem_nil) ?_
  grind [Spec.pure, Drop.mono, inUse_nil]

theorem ofBytes_zero : Dirent.ofBytes (List.replicate DIRENTSIZE 0) = Dirent.zero := by decide

/-- The part of `sys_unlink` that removes the entry. -/
theorem unlink_removes (lenient : Lenient allowed) (mid : Midway c p [(ip, I), (dp, P)] [ip, dp] s)
    (apart : ip ∉ [dp]) (dir : s.world.type P = .dir) (known : s.world.type I = type)
    (positive : 1 ≤ s.world.nlink I) (empty : type = .dir → Empty (s.world.entries I)) :
    Spec allowed (do
      sysUnlink.invalidate ip
      sysUnlink.invalidate dp
      let n ← writei dp (List.replicate DIRENTSIZE 0) (DIRENTSIZE * k)
      if n ≠ DIRENTSIZE then Exec.panic "unlink: writei"
      else
        when (type = .dir) (change dp .unlink)
        iunlockput p dp
        change ip .unlink
        iunlockput p ip
        return (0 : Int)) s
      fun r s' => r = 0 ∧ Midway c p [] [] s' ∧ Removes c.Used s.world P k I s'.world := by
  have own : ip ∈ [ip, dp] := List.mem_cons_self
  have ownParent : dp ∈ [ip, dp] := List.mem_cons_of_mem _ List.mem_cons_self
  have first : (ip, I) ∈ [(ip, I), (dp, P)] := List.mem_cons_self
  have second : (dp, P) ∈ [(ip, I), (dp, P)] := List.mem_cons_of_mem _ List.mem_cons_self
  have different : I ≠ P := by
    intro same
    have sees := mid.sees first own
    have seesParent := mid.sees second ownParent
    have equal := mid.sane.unique sees.used seesParent.used
      (sees.inum.trans (same.trans seesParent.inum.symm))
    grind
  refine Spec.bind (invalidate_step mid (mid.sees first own)) ?_
  rintro _ s1 ⟨mid1, world1⟩
  refine Spec.bind (invalidate_step mid1 (mid1.sees second ownParent)) ?_
  rintro _ s2 ⟨mid2, world2⟩
  rw [world1] at world2
  have dir2 : s2.world.type P = .dir := by
    rw [world2]
    exact dir
  refine Spec.bind (writeEntry_step lenient mid2 (mid2.sees second ownParent) dir2
    List.length_replicate) ?_
  intro n s3 wrote
  split
  · exact Spec.panic (lenient _ (by decide))
  rename_i whole
  obtain ⟨inside, mid3, size, addrs, world3⟩ := wrote (Decidable.not_not.mp whole)
  rw [world2] at inside
  rw [ofBytes_zero, world2] at world3
  refine Spec.through (fun _ s' => Midway c p [(ip, I), (dp, P)] [ip, dp] s' ∧ s'.world =
    (let cleared := (((s.world.invalidate I).invalidate P).put P k Dirent.zero).resize P size addrs
     if s.world.type I = .dir then cleared.change P .unlink else cleared)) ?_ ?_
  · rw [← known]
    refine Spec.when (fun isDir => ?_) fun other => ⟨mid3, ?_⟩
    · refine Spec.mono (change_step mid3 second ownParent _) ?_
      rintro _ s4 ⟨mid4, world4⟩
      refine ⟨mid4, ?_⟩
      rw [if_pos isDir, world4, world3]
    · rw [if_neg other]
      exact world3
  · rintro _ s4 ⟨mid4, world4⟩
    have swapped := (mid4.perm (List.Perm.swap _ _ _)).relock fun j =>
      (List.Perm.swap ip dp []).mem_iff
    refine Spec.bind (iunlockput_step swapped ?_) ?_
    · grind
    rintro _ s5 ⟨mid5, dropParent⟩
    refine Spec.bind (change_step mid5 List.mem_cons_self List.mem_cons_self _) ?_
    rintro _ s6 ⟨mid6, world6⟩
    refine Spec.bind (iunlockput_step mid6 List.not_mem_nil) ?_
    rintro _ s7 ⟨mid7, drop⟩
    rw [world6] at drop
    exact Spec.pure ⟨rfl, mid7, different, (mid.sees first own).allocated, positive,
      known ▸ empty, inside,
      size, addrs, s4.world, s5.world, world4, dropParent.mono (with_inUse (inUse_nil c)),
      drop.mono (inUse_nil c)⟩

theorem unlink_step (lenient : Lenient allowed) (roomy : c.Roomy allowed 2)
    (running : c.Running allowed p) (mid : Midway c p [] [] s)
    (toured : Toured allowed c.Used s.world (c.start p path) (elements path))
    (waits : ∀ w P name w1 k, Names c.Used true s.world (c.start p path) (elements path) w
      (some (P, name)) → ¬ Dots name → Lookup w P name w1 (some (P, k)) → allowed.waits) :
    Spec allowed (sysUnlink p path) s fun r s' => Midway c p [] [] s' ∧
      Unlinks c.Used s.world (c.start p path) (elements path) s'.world r := by
  obtain ⟨inv, tour, start⟩ := toured
  refine Spec.bind (nameiparent_step roomy (by simp) tour (inUse_nil c) path (fun _ => running)
    mid start) ?_
  rintro found s1 ⟨result, walk, arrives⟩
  match found, result, arrives with
  | none, none, arrives => exact Spec.pure ⟨arrives, Unlinks.lost walk⟩
  | some (dp, name), some (P, _), ⟨rfl, mid1, known⟩ =>
    refine Spec.bind (ilock_step mid1 List.mem_cons_self none_locked
      (tour.typed _ _ _ known)) ?_
    rintro _ s2 ⟨mid2, world2, _, _⟩
    rw [← world2] at walk known
    split
    · rename_i dots
      refine Spec.mono (unlink_bad_step mid2) ?_
      rintro r s3 ⟨rfl, mid3, drop⟩
      exact ⟨mid3, Unlinks.dots walk dots drop⟩
    rename_i other
    refine Spec.bind (dirlookup_step roomy (by simp) mid2
      (mid2.sees List.mem_cons_self List.mem_cons_self) (fun _ => lenient _ (by decide)) name) ?_
    rintro lookedUp s3 ⟨dir, post⟩
    cases lookedUp with
    | none =>
      rw [post.1]
      refine Spec.mono (unlink_bad_step mid2) ?_
      rintro r s4 ⟨rfl, mid4, drop⟩
      exact ⟨mid4, Unlinks.missing walk drop⟩
    | some lookedUp =>
      obtain ⟨ip, off⟩ := lookedUp
      obtain ⟨I, k, rfl, mid3, lookup⟩ := post
      have known3 := tour.next _ _ _ _ _ _ _ _ known dir lookup (Or.inl rfl)
      refine Spec.bind (ilock_step mid3 List.mem_cons_self (fun taken => ?_)
        (tour.typed _ _ _ known3)) ?_
      · have holds : (ip, P) ∈ [(ip, I), (dp, P)] := by grind
        have same : P = I := (mid3.names _ holds).symm.trans (mid3.names _ List.mem_cons_self)
        rw [← same] at lookup
        exact waits _ P name _ k walk other lookup
      rintro _ s4 ⟨mid4, world4, apart, _⟩
      rw [← world4] at lookup
      have dir4 : s4.world.type P = .dir := by
        rw [lookup.type]
        exact dir
      refine Spec.bind_get ?_
      have locked := mid4.sees List.mem_cons_self List.mem_cons_self
      rw [locked.din]
      split
      · exact Spec.panic (lenient _ (by decide))
      rename_i links
      have positive : 1 ≤ s4.world.nlink I := Int.not_lt.mp links
      refine Spec.through (fun empty s' => s' = s4 ∧
        (empty = true → (s4.dinodes I).type = .dir → Empty (s4.world.entries I))) ?_ ?_
      · split
        · rename_i isDir
          exact Spec.mono (isdirempty_step mid4 locked isDir) fun empty s' post =>
            ⟨post.1, fun all _ => post.2 all⟩
        · grind [Spec.pure]
      · rintro empty s5 ⟨same, cleared⟩
        rw [same]
        split
        · refine Spec.bind (iunlockput_step mid4 apart) ?_
          rintro _ s6 ⟨mid6, dropFound⟩
          refine Spec.mono (unlink_bad_step mid6) ?_
          rintro r s7 ⟨rfl, mid7, drop⟩
          exact ⟨mid7, Unlinks.notEmpty walk dir other lookup
            (dropFound.mono (with_inUse (inUse_nil c))) drop⟩
        · rename_i full
          rw [Bool.not_eq_false] at full
          refine Spec.mono (unlink_removes lenient mid4 apart dir4 rfl positive (cleared full)) ?_
          rintro r s6 ⟨rfl, mid6, removes⟩
          exact ⟨mid6, Unlinks.removed walk dir other lookup removes⟩

end Calls

end Xv6.Fs
