import Xv6.Fs.System

/- Between two calls no inode is without a user, so that the walks of a call free nothing.
What a call can do to the world is then one of the cases of `Effect`; invariants of the
world are proved case by case from here on. -/
namespace Xv6.Fs

open Namecache CString

section Lookups

/-- The directories in which the walk of `namex` finds a name. -/
def World.finds (parent : Bool) : World → Nat → List (List UInt8) → List Nat
  | _, _, [] => []
  | w, X, name :: rest =>
    if w.type X ≠ .dir then []
    else if parent = true ∧ rest = [] then []
    else
      match w.lookup X name with
      | (w1, some (I, _)) => X :: World.finds parent w1 I rest
      | (_, none) => []

/-- Names were looked up in some of the directories, and put into the name cache. -/
inductive Filled (dirs : List Nat) (w : World) : World → Prop
  | refl : Filled dirs w w
  | step {w1 : World} {P k I : Nat} {name : List UInt8} (before : Filled dirs w w1)
      (member : P ∈ dirs)
      (dir : w1.type P = .dir) (miss : namecacheLookup w1.cache ROOTDEV P name = 0)
      (there : scan name (w1.entries P) = some (k, I)) : Filled dirs w (w1.fill P name I)

variable {dirs : List Nat} {used : Nat → Prop} {w w1 w' : World} {X P : Nat} {name : List UInt8}

theorem Filled.trans (first : Filled dirs w w1) (second : Filled dirs w1 w') :
    Filled dirs w w' := by
  induction second with
  | refl => exact first
  | step _ member dir miss there ih => exact Filled.step ih member dir miss there

theorem Filled.mono {more : List Nat} (fills : Filled dirs w w') (imply : ∀ D ∈ dirs, D ∈ more) :
    Filled more w w' := by
  induction fills with
  | refl => exact Filled.refl
  | step _ member dir miss there ih => exact Filled.step ih (imply _ member) dir miss there

theorem Filled.recached (fills : Filled dirs w w') : Recached w w' := by
  induction fills with
  | refl => exact Recached.refl w
  | step _ _ _ _ _ ih => exact ih.trans (Recached.fill _ _ _ _)

theorem Lookup.filled {found : Option (Nat × Nat)} (lookup : Lookup w P name w' found)
    (dir : w.type P = .dir) (member : found ≠ none → P ∈ dirs) : Filled dirs w w' := by
  cases lookup with
  | cached | missing => exact Filled.refl
  | found miss there => exact Filled.step Filled.refl (member nofun) dir miss there

/-- A walk looks names up where `World.finds` says. -/
theorem Names.filled {parent : Bool} {names : List (List UInt8)} {found : Option (Nat × List UInt8)}
    (walk : Names used parent w X names w' found) (none : NoOrphans used w) :
    Filled (w.finds parent X names) w w' := by
  induction walk with
  | done _ => exact Filled.refl
  | noParent _ drop | notDir _ drop | missing _ _ _ drop =>
    rw [drop.still none]
    exact Filled.refl
  | stop _ _ => exact Filled.refl
  | next goes dir lookup drop _ ih =>
    obtain rfl := drop.still ((none.recached lookup.recached).with _)
    rw [World.finds, if_neg (fun other => other dir), if_neg goes, lookup.eq]
    refine (lookup.filled dir fun _ => List.mem_cons_self).trans ?_
    exact (ih (none.recached lookup.recached)).mono fun D member => List.mem_cons_of_mem _ member

end Lookups

section Effect

/-- The last element of a path: the directory it is looked up in, and the world then. -/
structure Target where
  world : World
  dir : Nat
  name : List UInt8

def World.target (w : World) (X : Nat) (names : List (List UInt8)) : Option Target :=
  match w.walk true X names with
  | (w1, some (P, name)) => some ⟨w1, P, name⟩
  | (_, none) => none

variable (s : State) (p : Fin NPROC)

/-- Where a call looks up the name that it makes or removes. -/
def Call.target : Call → Option Target
  | .sysOpen path omode =>
    if hasBits omode O_CREATE then s.world.target (s.outside.start p path) (elements path) else none
  | .sysMkdir path | .sysMknod path _ _ | .sysUnlink path =>
    s.world.target (s.outside.start p path) (elements path)
  | .sysLink old new =>
    match s.world.walk false (s.outside.start p old) (elements old) with
    | (w, some (I, _)) =>
      if w.type I = .dir then none
      else (w.change I .link).target (s.outside.start p new) (elements new)
    | (_, none) => none
  | _ => none

/-- The inode that `sys_link` links. -/
def Call.linkee : Call → Option Nat
  | .sysLink old _ => (s.world.walk false (s.outside.start p old) (elements old)).2.map Prod.fst
  | _ => none

/-- The directories in which the walks of a call find a name. -/
def Call.walks : Call → List Nat
  | .sysOpen path omode => s.world.finds (hasBits omode O_CREATE) (s.outside.start p path)
      (elements path)
  | .sysMkdir path | .sysMknod path _ _ | .sysUnlink path =>
    s.world.finds true (s.outside.start p path) (elements path)
  | .sysLink old new =>
    s.world.finds false (s.outside.start p old) (elements old) ++
      match s.world.walk false (s.outside.start p old) (elements old) with
      | (w, some (I, _)) =>
        if w.type I = .dir then []
        else (w.change I .link).finds true (s.outside.start p new) (elements new)
      | (_, none) => []
  | .sysChdir path | .sysChmod path _ | .sysChown path _ | .exec path _ _ _ =>
    s.world.finds false (s.outside.start p path) (elements path)
  | _ => []

/-- The directory of the last element, unless `sys_unlink` does not find the name there. -/
def Call.reaches (call : Call) : List Nat :=
  match call.target s p, call with
  | some t, .sysUnlink _ =>
      if ¬ Dots t.name ∧ (t.world.lookup t.dir t.name).2 ≠ none then [t.dir] else []
  | some t, _ => [t.dir]
  | none, _ => []

/-- The directories in which a call finds a name or makes an entry. -/
def Call.finds (call : Call) : List Nat := call.walks s p ++ call.reaches s p

/-- What a call does to the world. -/
inductive Effect (call : Call) : World → Int → Prop
  | looked {w' : World} {r : Int} (fills : Filled (call.finds s p) s.world w') : Effect call w' r
  | made {w1 w2 w3 w' : World} {r : Int} {type : Itype} {P X : Nat} {name : List UInt8}
      (aim : call.target s p = some ⟨w1, P, name⟩) (reach : P ∈ call.finds s p)
      (kind : type ≠ .free ∧ (type = .dir → ∃ path, call = .sysMkdir path))
      (makes : ¬ ∃ path, call = .sysUnlink path) (fills : Filled (call.finds s p) s.world w1)
      (dir : w1.type P = .dir)
      (lookup : Lookup w1 P name w1 none) (vacant : w1.vacant = some X)
      (begins : Begins (s.outside.fresh p type) w1 P X w2) (links : Linked w2 P name X w3)
      (drop : Drop (With s.outside.Used X) w3 P w') : Effect call w' r
  | linked {w1 w2 w3 w' : World} {I P : Nat} {name : List UInt8} (isLink : ∃ old new,
      call = .sysLink old new)
      (source : call.linkee s p = some I) (aim : call.target s p = some ⟨w2, P, name⟩)
      (reach : P ∈ call.finds s p)
      (fills : Filled (call.finds s p) s.world w1) (other : w1.type I ≠ .dir)
      (allocated : w1.type I ≠ .free)
      (more : Filled (call.finds s p) (w1.change I .link) w2) (links : Linked w2 P name I w3)
      (drop : Drop s.outside.Used w3 I w') : Effect call w' 0
  | undone {w1 w2 w' : World} {I : Nat} (fills : Filled (call.finds s p) s.world w1)
      (other : w1.type I ≠ .dir)
      (allocated : w1.type I ≠ .free) (more : Filled (call.finds s p) (w1.change I .link) w2)
      (drop : Drop s.outside.Used (w2.change I .unlink) I w') : Effect call w' (-1)
  | removed {w1 w2 w' : World} {P I k : Nat} {name : List UInt8} (isUnlink : ∃ path,
      call = .sysUnlink path)
      (aim : call.target s p = some ⟨w1, P, name⟩) (reach : P ∈ call.finds s p)
      (fills : Filled (call.finds s p) s.world w1) (dir : w1.type P = .dir) (other : ¬ Dots name)
      (lookup : Lookup w1 P name w2 (some (I, k))) (removes : Removes s.outside.Used w2 P k I w') :
      Effect call w' 0
  | dropped {w1 w' : World} {r : Int} (fills : Filled (call.finds s p) s.world w1)
      (drops : Drops w1 w') : Effect call w' r
  | wrote {w' : World} {r : Int} (writes : Writes s.world w') : Effect call w' r
  | chmod {w1 w' : World} {I : Nat} {path : List UInt8} {mode : Int}
      (isChmod : call = .sysChmod path mode)
      (allowed : (s.procs p).uid = 0 ∨ (s.procs p).uid = (s.world.inode I).uid)
      (fills : Filled (call.finds s p) s.world w1) (eq : w' = w1.change I (.chmod mode)) :
      Effect call w' 0
  | chown {w1 w' : World} {I : Nat} {path : List UInt8} {uid : Int}
      (isChown : call = .sysChown path uid)
      (allowed : (s.procs p).uid = 0) (fills : Filled (call.finds s p) s.world w1)
      (eq : w' = w1.change I (.chown uid)) : Effect call w' 0

variable {s p} {call : Call} {w1 w' : World} {r : Int}

theorem Names.target {used : Nat → Prop} {w : World} {X P : Nat} {names : List (List UInt8)}
    {name : List UInt8} (walk : Names used true w X names w1 (some (P, name)))
    (none : NoOrphans used w) :
    w.target X names = some ⟨w1, P, name⟩ := by
  rw [World.target, (walk.eq_walk none).1]

theorem Call.mem_reaches {t : Target} (aim : call.target s p = some t)
    (found : (∃ path, call = .sysUnlink path) → ¬ Dots t.name ∧
      (t.world.lookup t.dir t.name).2 ≠ none) :
    t.dir ∈ call.finds s p := by
  refine List.mem_append_right _ ?_
  unfold Call.reaches
  rw [aim]
  cases call with
  | sysUnlink path =>
    grind
  | _ => exact List.mem_cons_self

theorem Filled.walked {dirs : List Nat} {w : World} (fills : Filled dirs w w')
    (walks : ∀ D ∈ dirs, D ∈ call.walks s p) : Filled (call.finds s p) w w' :=
  fills.mono fun D member => List.mem_append_left _ (walks D member)

section Create

variable {path : List UInt8} {type : Itype} {found : Option Nat}

/-- `create` looks names up, or makes an inode with a link. -/
theorem Creates.effect (none : NoOrphans s.outside.Used s.world)
    (aim : call.target s p = s.world.target (s.outside.start p path) (elements path))
    (walks : call.walks s p = s.world.finds true (s.outside.start p path) (elements path))
    (makes : ¬ ∃ path, call = .sysUnlink path)
    (kind : type ≠ .free ∧ (type = .dir → ∃ path, call = .sysMkdir path))
    (creates : Creates s.outside.Used (s.outside.fresh p type) s.world (s.outside.start p path)
      (elements path) w' found) :
    Filled (call.finds s p) s.world w' ∨ (∀ r, Effect s p call w' r) ∧ ∀ I, found = some I →
      w'.nlink I ≠ 0 := by
  have walked : ∀ {w1 result}, s.Walks p path true w1
      result → Filled (call.finds s p) s.world w1 :=
    fun walk => (walk.filled none).walked fun D member => walks ▸ member
  have reach : ∀ {w1 P name}, s.Walks p path true w1
      (some (P, name)) → call.target s p = some ⟨w1, P, name⟩ ∧ P ∈ call.finds s p := by
    intro w1 P name walk
    have here := aim.trans (walk.target none)
    exact ⟨here, Call.mem_reaches here fun unlink => (makes unlink).elim⟩
  cases creates with
  | lost walk => exact Or.inl (walked walk)
  | opened walk dir lookup drop file =>
    have still := none.recached ((walked walk).trans (lookup.filled dir fun _ =>
      (reach walk).2)).recached
    rw [drop.still (still.with _)]
    exact Or.inl ((walked walk).trans (lookup.filled dir fun _ => (reach walk).2))
  | refused walk dir lookup dropParent drop =>
    have still := none.recached ((walked walk).trans (lookup.filled dir fun _ =>
      (reach walk).2)).recached
    rw [dropParent.still (still.with _)] at drop
    rw [drop.still still]
    exact Or.inl ((walked walk).trans (lookup.filled dir fun _ => (reach walk).2))
  | made walk dir lookup vacant begins links drop =>
    rename_i w1 w2 w3 P I name
    obtain ⟨here, member⟩ := reach walk
    have apart : I ≠ P := by
      intro same
      have free := (vacant_spec vacant).2.2
      rw [same, dir] at free
      cases free
    refine Or.inr ⟨fun r => Effect.made here member kind makes (walked walk) dir lookup vacant
      begins links drop, ?_⟩
    rintro J ⟨⟩
    rw [drop.nlink_of_ne apart, links.nlink, begins.nlink apart]
    exact one_ne_zero

theorem Makes.effect (none : NoOrphans s.outside.Used s.world)
    (aim : call.target s p = s.world.target (s.outside.start p path) (elements path))
    (walks : call.walks s p = s.world.finds true (s.outside.start p path) (elements path))
    (makes : ¬ ∃ path, call = .sysUnlink path)
    (kind : type ≠ .free ∧ (type = .dir → ∃ path, call = .sysMkdir path))
    (done : Makes s.outside.Used (s.outside.fresh p type) s.world (s.outside.start p path)
      (elements path) w' r) :
    Effect s p call w' r := by
  cases done with
  | failed creates =>
    rcases creates.effect none aim walks makes kind with fills | ⟨effect, _⟩
    · exact Effect.looked fills
    · exact effect _
  | done creates drop =>
    rcases creates.effect none aim walks makes kind with fills | ⟨effect, some⟩
    · rw [drop.still (none.recached fills.recached)]
      exact Effect.looked fills
    · rw [drop.linked (some _ rfl)]
      exact effect _

theorem Opens.effect {omode : Int} {room : Prop} {refuses : Dinode → Prop}
    (none : NoOrphans s.outside.Used s.world)
    (opens : Opens s.outside.Used (hasBits omode O_CREATE = true) room refuses
      (s.outside.fresh p .file) s.world (s.outside.start p path) (elements path) w' r) :
    Effect s p (.sysOpen path omode) w' r := by
  have inode : ∀ {w1 found}, OpensInode s.outside.Used (hasBits omode O_CREATE = true) refuses
      (s.outside.fresh p .file) s.world (s.outside.start p path) (elements path) w1 found →
      Filled ((Call.sysOpen path omode).finds s p) s.world w1 ∨
        (∀ r, Effect s p (.sysOpen path omode) w1 r) ∧ ∀ I, found = some I → w1.nlink I ≠ 0 := by
    intro w1 found opened
    cases opened with
    | created asked creates =>
      have kind : Itype.file ≠ .free ∧
          (Itype.file = .dir → ∃ path', Call.sysOpen path omode = .sysMkdir path') :=
          ⟨by decide, nofun⟩
      refine creates.effect none ?_ ?_ nofun kind
      · rw [Call.target, if_pos asked]
      · rw [Call.walks, asked]
    | lost plain walk =>
      refine Or.inl ((walk.filled none).walked fun D member => ?_)
      rw [Call.walks, Bool.eq_false_iff.mpr plain]
      exact member
    | refused plain walk _ drop =>
      have fills := walk.filled none
      rw [drop.still (none.recached fills.recached)]
      refine Or.inl (fills.walked fun D member => ?_)
      rw [Call.walks, Bool.eq_false_iff.mpr plain]
      exact member
    | found plain walk _ =>
      refine Or.inl ((walk.filled none).walked fun D member => ?_)
      rw [Call.walks, Bool.eq_false_iff.mpr plain]
      exact member
  cases opens with
  | failed opened =>
    rcases inode opened with fills | ⟨effect, _⟩
    · exact Effect.looked fills
    · exact effect _
  | full opened _ drop =>
    rcases inode opened with fills | ⟨effect, some⟩
    · rw [drop.still (none.recached fills.recached)]
      exact Effect.looked fills
    · rw [drop.linked (some _ rfl)]
      exact effect _
  | done opened _ _ =>
    rcases inode opened with fills | ⟨effect, _⟩
    · exact Effect.looked fills
    · exact effect _

end Create

theorem Links.effect {old new : List UInt8} (none : NoOrphans s.outside.Used s.world)
    (links : Links s.outside.Used s.world (s.outside.start p old) (elements old)
      (s.outside.start p new) (elements new) w' r) : Effect s p (.sysLink old new) w' r := by
  have first : ∀ {w1 result}, Names s.outside.Used false s.world (s.outside.start p old)
      (elements old) w1 result → Filled ((Call.sysLink old new).finds s p) s.world w1 :=
    fun walk => (walk.filled none).walked fun D member => List.mem_append_left _ member
  -- The second walk, from the inode with one link more.
  have again : ∀ {w1 w2 I name result}, Names s.outside.Used false s.world (s.outside.start p old)
      (elements old) w1 (some (I, name)) → w1.type I ≠ .dir →
      Names (With s.outside.Used I) true (w1.change I .link) (s.outside.start p new) (elements new)
      w2 result → Filled ((Call.sysLink old new).finds s p) (w1.change I .link) w2 ∧
        NoOrphans (With s.outside.Used I) w2 := by
    intro w1 w2 I name result walk other second
    have counted := (none.recached (first walk).recached).change I .link
    have fills := second.filled counted
    refine ⟨fills.walked fun D member => List.mem_append_right _ ?_,
      counted.recached fills.recached⟩
    rw [(walk.eq_walk none).1]
    grind
  have reach : ∀ {w1 w2 I P name last}, Names s.outside.Used false s.world (s.outside.start p old)
      (elements old) w1 (some (I, name)) → w1.type I ≠ .dir →
      Names (With s.outside.Used I) true (w1.change I .link) (s.outside.start p new)
      (elements new) w2
        (some (P, last)) → (Call.sysLink old new).target s p = some ⟨w2, P, last⟩ ∧
        P ∈ (Call.sysLink old new).finds s p := by
    intro w1 w2 I P name last walk other second
    have here : (Call.sysLink old new).target s p = some ⟨w2, P, last⟩ := by
      rw [Call.target, (walk.eq_walk none).1]
      grind [Names.target, NoOrphans.recached, Filled.recached, NoOrphans.change]
    exact ⟨here, Call.mem_reaches here nofun⟩
  cases links with
  | lost walk => exact Effect.looked (first walk)
  | directory walk _ drop =>
    rw [drop.still (none.recached (first walk).recached)]
    exact Effect.looked (first walk)
  | noParent walk other allocated second drop =>
    exact Effect.undone (first walk) other allocated (again walk other second).1 drop
  | taken walk other allocated second dir lookup dropFound dropParent drop =>
    obtain ⟨fills, counted⟩ := again walk other second
    have more := lookup.filled dir fun _ => (reach walk other second).2
    have still := counted.recached more.recached
    obtain rfl := dropFound.still (still.with _)
    obtain rfl := dropParent.still still
    exact Effect.undone (first walk) other allocated (fills.trans more) drop
  | linked walk other allocated second links dropParent drop =>
    obtain ⟨fills, counted⟩ := again walk other second
    obtain ⟨here, member⟩ := reach walk other second
    obtain rfl := dropParent.still (counted.congr links.type links.nlink)
    refine Effect.linked ⟨old, new, rfl⟩ ?_ here member (first walk) other allocated
      fills links drop
    rw [Call.linkee, (walk.eq_walk none).1]
    rfl

theorem Unlinks.effect {path : List UInt8} (none : NoOrphans s.outside.Used s.world)
    (unlinks : Unlinks s.outside.Used s.world (s.outside.start p path) (elements path) w' r) :
    Effect s p (.sysUnlink path) w' r := by
  have walked : ∀ {w1 result}, s.Walks p path true w1
      result → Filled ((Call.sysUnlink path).finds s p) s.world w1 :=
    fun walk => (walk.filled none).walked fun D member => member
  have reach : ∀ {w1 w2 P I k name}, s.Walks p path true
      w1 (some (P, name)) → ¬ Dots name → Lookup w1 P name w2 (some (I, k)) →
      (Call.sysUnlink path).target s p = some ⟨w1, P, name⟩ ∧ P ∈ (Call.sysUnlink path).finds s p :=
    by
    intro w1 w2 P I k name walk other lookup
    have here : (Call.sysUnlink path).target s p = some ⟨w1, P, name⟩ := walk.target none
    refine ⟨here, Call.mem_reaches here fun _ => ⟨other, ?_⟩⟩
    rw [lookup.eq]
    exact nofun
  cases unlinks with
  | lost walk => exact Effect.looked (walked walk)
  | dots walk _ drop | missing walk drop =>
    rw [drop.still (none.recached (walked walk).recached)]
    exact Effect.looked (walked walk)
  | notEmpty walk dir other lookup dropFound drop =>
    have fills := (walked walk).trans (lookup.filled dir fun _ => (reach walk other lookup).2)
    have still := none.recached fills.recached
    obtain rfl := dropFound.still (still.with _)
    rw [drop.still still]
    exact Effect.looked fills
  | removed walk dir other lookup removes =>
    obtain ⟨here, member⟩ := reach walk other lookup
    exact Effect.removed ⟨path, rfl⟩ here member (walked walk) dir other lookup removes

/-- A change that leaves the links alone. -/
theorem links_change {w : World} {I : Nat} {c : Change}
    (same : (c.apply (w.inode I)).nlink = w.nlink I) (j : Nat) :
    (w.change I c).type j = w.type j ∧ (w.change I c).nlink j = w.nlink j := by
  refine ⟨type_change _ _ _ _, ?_⟩
  grind [nlink_change]

/-- A call that returns has one of the effects. -/
theorem callStep_effect {s' : State} (base : Base s) (taken : callStep s (p, call) = .ok (r, s')) :
    Effect s p call s'.world r := by
  have none := base.noOrphans
  have does := (callStep_base base taken).2
  -- A call that visits the end of a path and leaves the links alone.
  have visit : ∀ {path act}, (∀ D ∈ s.world.finds false (s.outside.start p path) (elements path),
      D ∈ call.walks s p) →
      (∀ w1 I w2 r, act w1 I w2 r → ∀ j, w2.type j = w1.type j ∧ w2.nlink j = w1.nlink j) →
      Visits s.outside.Used act s.world (s.outside.start p path) (elements path) s'.world r →
      (Filled (call.finds s p) s.world s'.world ∧ r = -1) ∨
        ∃ w1 I, Filled (call.finds s p) s.world w1 ∧ act w1 I s'.world r := by
    intro path act walks keeps visits
    cases visits with
    | lost walk => exact Or.inl ⟨(walk.filled none).walked walks, rfl⟩
    | acts walk acted drop =>
      have fills := (walk.filled none).walked walks
      have still := (none.recached fills.recached).congr (fun j => (keeps _ _ _ _ acted j).1)
        fun j => (keeps _ _ _ _ acted j).2
      grind [Drop.still]
  cases call with
  | sysOpen path omode => exact Opens.effect none does
  | sysMkdir path => exact Makes.effect none rfl rfl nofun ⟨by decide, fun _ => ⟨path, rfl⟩⟩ does
  | sysMknod path major minor =>
    have kind : Itype.dev ≠ .free ∧
        (Itype.dev = .dir → ∃ path', Call.sysMknod path major minor = .sysMkdir path') :=
        ⟨by decide, nofun⟩
    exact Makes.effect none rfl rfl nofun kind does
  | sysLink old new => exact Links.effect none does
  | sysUnlink path => exact Unlinks.effect none does
  | sysChdir path =>
    cases (does : Enters _ _ _ _ _ _) with
    | refused visits =>
      rcases visit (fun D member => member)
        (fun _ _ _ _ acted j => by rw [acted.1]; exact ⟨rfl, rfl⟩) visits
        with ⟨fills, _⟩ | ⟨w1, I, fills, same, _⟩
      · exact Effect.looked fills
      · rw [same]
        exact Effect.looked fills
    | entered walk _ drops =>
      exact Effect.dropped ((walk.filled none).walked fun D member => member) drops
  | sysChmod path mode =>
    have keeps : ∀ w1 I w2 r, Chmods (s.procs p).uid mode w1 I w2 r → ∀ j, w2.type j = w1.type j ∧
        w2.nlink j = w1.nlink j := by
      rintro w1 I w2 r (⟨rfl, _⟩ | ⟨rfl, _⟩) j
      · exact ⟨rfl, rfl⟩
      · exact links_change rfl j
    rcases visit (fun D member => member) keeps does
      with ⟨fills, _⟩ | ⟨w1, I, fills, ⟨same, _⟩ | ⟨changed, rfl, owner⟩⟩
    · exact Effect.looked fills
    · rw [same]
      exact Effect.looked fills
    · obtain ⟨cache, rfl⟩ := fills.recached
      exact Effect.chmod rfl owner fills changed
  | sysChown path uid =>
    rcases does with ⟨same, _⟩ | ⟨root, visits⟩
    · rw [same]
      exact Effect.looked Filled.refl
    · have keeps : ∀ w1 I w2 r, Chowns uid w1 I w2 r → ∀ j, w2.type j = w1.type j ∧
        w2.nlink j = w1.nlink j := by
        rintro w1 I w2 r ⟨rfl, _⟩ j
        exact links_change rfl j
      rcases visit (fun D member => member) keeps visits with ⟨fills, _⟩ | ⟨w1, I, fills,
        changed, rfl⟩
      · exact Effect.looked fills
      · exact Effect.chown rfl root fills changed
  | exec path setupkvm enough rest =>
    rcases visit (fun D member => member) (fun _ _ _ _ acted j =>
      by rw [acted]; exact ⟨rfl, rfl⟩) does with ⟨fills, _⟩ | ⟨w1, I, fills, same⟩
    · exact Effect.looked fills
    · rw [same]
      exact Effect.looked fills
  | sysClose fd | exit => exact Effect.dropped Filled.refl does
  | sysWrite fd src => exact Effect.wrote does
  | sysDup | sysPipe | sysRead | sysFstat | fork | setCreds =>
    have same : s'.world = s.world := does
    rw [same]
    exact Effect.looked Filled.refl

end Effect

section Stable

/-- Every allocated inode has a number of the table. -/
def World.Numbered (w : World) : Prop := ∀ j, w.type j ≠ .free → j ≠ 0 ∧ j < NINODES

/-- The single changes of the world that calls are made of keep `inv`. -/
structure Stable (inv : World → Prop) : Prop where
  fill : ∀ {w : World} {P k I : Nat} {name : List UInt8}, inv w → w.type P = .dir →
    scan name (w.entries P) = some (k, I) → inv (w.fill P name I)
  free : ∀ {w : World} (X : Nat) (addrs : Nat → Nat), inv w →
    inv (w.reset X ((w.inode X).freed addrs))
  fresh : ∀ {w : World} (X : Nat) {new din : Dinode}, inv w → Fresh new din → inv (w.reset X din)
  change : ∀ {w : World} (X : Nat) (c : Change), inv w → inv (w.change X c)
  linked : ∀ {w w' : World} {P I : Nat} {name : List UInt8}, inv w → I ≠ 0 ∧ I < NINODES →
    Dots name ∨ I ≠ P → Linked w P name I w' → inv w'
  clear : ∀ {w : World} (P k I size : Nat) (addrs : Nat → Nat), inv w → k ≤ (w.entries P).length →
    inv ((((w.invalidate I).invalidate P).put P k Dirent.zero).resize P size addrs)
  write : ∀ {w : World} {X : Nat} (bytes : List UInt8) (size : Nat) (addrs : Nat → Nat), inv w →
    w.type X ≠ .dir → inv ((w.store X bytes).resize X size addrs)

variable {inv : World → Prop} {used : Nat → Prop} {dirs : List Nat} {w w' : World} {X P I k : Nat}

theorem Stable.filled (stable : Stable inv) (fills : Filled dirs w w') (holds : inv w) :
    inv w' := by
  induction fills with
  | refl => exact holds
  | step _ _ dir _ there ih => exact stable.fill ih dir there

theorem Stable.drop (stable : Stable inv) (drop : Drop used w X w') (holds : inv w) : inv w' := by
  rcases drop with rfl | ⟨_, _, _, addrs, rfl⟩
  · exact holds
  · exact stable.free X addrs holds

theorem Stable.drops (stable : Stable inv) (drops : Drops w w') (holds : inv w) : inv w' := by
  induction drops with
  | refl => exact holds
  | step drop _ ih => exact ih (stable.drop drop holds)

theorem Stable.writes (stable : Stable inv) (writes : Writes w w') (holds : inv w) : inv w' := by
  induction writes with
  | refl => exact holds
  | step _ file wrote ih =>
    rw [wrote]
    exact stable.write _ _ _ ih file

theorem Stable.begins (stable : Stable inv) {new : Dinode} (begins : Begins new w P X w')
    (holds : inv w) (small : X ≠ 0 ∧ X < NINODES) (parent : P ≠ 0 ∧ P < NINODES) : inv w' := by
  obtain ⟨din, fresh, begins⟩ := begins
  have reset := stable.fresh X holds fresh
  split at begins
  · obtain ⟨w1, dot, dotdot⟩ := begins
    have first := stable.linked (stable.change P .link reset) small (Or.inl (by decide)) dot
    exact stable.linked first parent (Or.inl (by decide)) dotdot
  · rw [begins]
    exact reset

theorem Stable.removes (stable : Stable inv) (removes : Removes used w P k I w') (holds : inv w) :
    inv w' := by
  obtain ⟨size, addrs, w1, w2, cleared, dropParent, drop⟩ := removes.steps
  have first : inv w1 := by grind [change, clear, Removes.inside]
  exact stable.drop drop (stable.change I .unlink (stable.drop dropParent first))

variable {s : State} {p : Fin NPROC} {call : Call} {r : Int}

/-- What the single changes keep, a call keeps. -/
theorem Effect.stable (stable : Stable inv) (numbered : s.world.Numbered)
    (effect : Effect s p call w' r) (holds : inv s.world) : inv w' := by
  have known : ∀ {w1}, Filled (call.finds s p) s.world w1 → w1.Numbered := by
    intro w1 fills
    obtain ⟨_, rfl⟩ := fills.recached
    exact numbered
  cases effect with
  | looked fills => exact stable.filled fills holds
  | made aim reach kind makes fills dir lookup vacant begins links drop =>
    rename_i w1 w2 w3 type P X name
    obtain ⟨positive, below, free⟩ := vacant_spec vacant
    have small : X ≠ 0 ∧ X < NINODES := ⟨Nat.pos_iff_ne_zero.mp positive, below⟩
    have parent := known fills P (by rw [dir]; exact Itype.noConfusion)
    have apart : X ≠ P := by grind
    have begun := stable.begins begins (stable.filled fills holds) small parent
    exact stable.drop drop (stable.linked begun small (Or.inr apart) links)
  | linked isLink source aim reach fills other allocated more links drop =>
    rename_i w1 w2 w3 I P name
    have apart : I ≠ P := by
      intro same
      obtain ⟨_, rfl⟩ := more.recached
      have dir : (w1.change I .link).type P = .dir := links.dir
      rw [type_change, ← same] at dir
      exact other dir
    have counted := stable.filled more (stable.change I .link (stable.filled fills holds))
    exact stable.drop drop (stable.linked counted (known fills I allocated) (Or.inr apart) links)
  | undone fills other allocated more drop =>
    have counted := stable.filled more (stable.change _ .link (stable.filled fills holds))
    exact stable.drop drop (stable.change _ .unlink counted)
  | removed isUnlink aim reach fills dir other lookup removes =>
    have found := @Lookup.filled [_] _ _ _ _ _ lookup dir fun _ => List.mem_cons_self
    exact stable.removes removes (stable.filled found (stable.filled fills holds))
  | dropped fills drops => exact stable.drops drops (stable.filled fills holds)
  | wrote writes => exact stable.writes writes holds
  | chmod isChmod allowed fills eq =>
    rw [eq]
    exact stable.change _ _ (stable.filled fills holds)
  | chown isChown allowed fills eq =>
    rw [eq]
    exact stable.change _ _ (stable.filled fills holds)

variable {im : Mkfs.Image} {files : List Mkfs.Source} {devsw : Int → Option Device}
  {calls : List (Fin NPROC × Call)}

theorem Base.numbered (base : Base s) : s.world.Numbered := fun j allocated =>
  ((base.mid 0).sane.numbered j allocated).imp_left Nat.pos_iff_ne_zero.mp

/-- It holds after any run then, if it does of the image. -/
theorem Stable.run (stable : Stable inv) (made : Mkfs.Made im files)
    (initial : inv (im.boot devsw).world) (reached : runSystem im devsw calls = some s) :
    Base s ∧ inv s.world := by
  refine @run_system_all im files devsw (fun s => inv s.world) made (fun s _ world => ?_)
    (fun s p call r s' base holds taken => ?_) calls s reached
  · rw [world]
    exact initial
  · exact (callStep_effect base taken).stable stable base.numbered holds

end Stable

section Short

theorem toShort_toShort (x : Int) : toShort (toShort x) = toShort x := Int.bmod_bmod

/-- A link that is taken back. -/
theorem toShort_back {x : Int} (short : toShort x = x) : toShort (toShort (x + 1) - 1) = x := by
  simp only [toShort, Int.bmod_def] at *
  omega

/-- A link that is taken back leaves only the name cache changed. -/
theorem recached_undone {w1 w2 : World} {I : Nat} (short : toShort (w1.nlink I) = w1.nlink I)
    (recached : Recached (w1.change I .link) w2) :
    Recached w1 (w2.change I .unlink) := by
  obtain ⟨cache, rfl⟩ := recached
  have back : Change.unlink.apply (Change.link.apply (w1.inode I)) = w1.inode I := by
    have same := toShort_back short
    simp only [World.nlink] at same
    simp only [Change.apply, same]
  refine ⟨cache, World.eq_of (fun j => ?_) (fun _ => rfl) (fun _ => rfl) rfl⟩
  simp only [World.change, Function.update_self, Function.update_idem, back,
    Function.update_eq_self]

/-- Every link count is a short. -/
def ShortLinks (w : World) : Prop := ∀ j, w.type j ≠ .free → toShort (w.nlink j) = w.nlink j

theorem shortLinks_congr {w w' : World} (short : ShortLinks w) (type : ∀ j, w'.type j = w.type j)
    (nlink : ∀ j, w'.nlink j = w.nlink j) : ShortLinks w' := by
  intro j allocated
  rw [type] at allocated
  rw [nlink]
  exact short j allocated

theorem stable_shortLinks : Stable ShortLinks where
  fill short _ _ := short
  free X addrs short := by
    intro j allocated
    rw [type_reset] at allocated
    rw [nlink_reset]
    split
    · rename_i here
      rw [if_pos here] at allocated
      exact (allocated rfl).elim
    · rename_i other
      rw [if_neg other] at allocated
      exact short j allocated
  fresh X new din short fresh := by
    intro j allocated
    rw [type_reset] at allocated
    rw [nlink_reset]
    split
    · rw [fresh.nlink]
      rfl
    · rename_i other
      rw [if_neg other] at allocated
      exact short j allocated
  change X c short := by
    intro j allocated
    rw [type_change] at allocated
    rw [nlink_change]
    split
    · rename_i here
      rw [here] at allocated
      cases c with
      | link | unlink => exact toShort_toShort _
      | create => rfl
      | chmod | chown => exact short X allocated
    · exact short j allocated
  linked short _ _ linked := shortLinks_congr short linked.type linked.nlink
  clear P k I size addrs short _ :=
    shortLinks_congr short (fun j => type_resize _ _ _ _ _) fun j => nlink_resize _ _ _ _ _
  write bytes size addrs short _ :=
    shortLinks_congr short (fun j => type_resize _ _ _ _ _) fun j => nlink_resize _ _ _ _ _

theorem shortLinks_boot {im : Mkfs.Image} {files : List Mkfs.Source} {devsw : Int → Option Device}
    (made : Mkfs.Made im files) : ShortLinks (im.boot devsw).world := by
  intro j allocated
  rw [show (im.boot devsw).world.nlink j = 1 from made_nlink made allocated]
  rfl

end Short

end Xv6.Fs
