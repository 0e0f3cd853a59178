import Xv6.Fs.Entries
import Xv6.Fs.File

/- The file system as its calls show it: inodes, directory entries, the content of files
and the name cache, without blocks and without the inode cache. What the calls of
sysfile.c do to it is a relation: whether a dropped reference was the last one is not
known here, except for the inodes that somebody is known to use. -/
namespace Xv6.Fs

open Namecache CString

variable {names : List (List UInt8)} {more : Nat → Prop} {parent : Bool} {new : Dinode}

structure World where
  inode : Nat → Dinode
  /-- Empty unless the inode is a directory. -/
  entries : Nat → List Dirent
  /-- The content of an inode that is not a directory. -/
  data : Nat → List UInt8
  cache : Cache

def World.type (w : World) (j : Nat) : Itype := (w.inode j).type

def World.nlink (w : World) (j : Nat) : Int := (w.inode j).nlink

theorem World.eq_of {w w' : World} (inode : ∀ j, w.inode j = w'.inode j)
    (entries : ∀ j, w.entries j = w'.entries j) (data : ∀ j, w.data j = w'.data j)
    (cache : w.cache = w'.cache) : w = w' := by
  cases w
  obtain rfl := funext inode
  obtain rfl := funext entries
  obtain rfl := funext data
  obtain rfl := cache
  rfl

section Changes

variable (w : World) (X : Nat)

def World.fill (name : List UInt8) (I : Nat) : World :=
  { w with cache := namecacheAdd w.cache ROOTDEV X name I }

def World.invalidate : World := { w with cache := namecacheInvalidate w.cache ROOTDEV X }

/-- Inode `X` is now `din`, without content. -/
def World.reset (din : Dinode) : World :=
  { w with
    inode := Function.update w.inode X din
    entries := Function.update w.entries X []
    data := Function.update w.data X [] }

def World.change (c : Change) : World :=
  { w with inode := Function.update w.inode X (c.apply (w.inode X)) }

/-- The size and the blocks of inode `X` follow its content. -/
def World.resize (size : Nat) (addrs : Nat → Nat) : World :=
  { w with inode := Function.update w.inode X { w.inode X with size := size, addrs := addrs } }

def World.put (k : Nat) (de : Dirent) : World :=
  { w with entries := Function.update w.entries X (putEntry (w.entries X) k de) }

def World.store (bytes : List UInt8) : World := { w with data := Function.update w.data X bytes }

variable (j : Nat)

@[simp] theorem type_store (bytes : List UInt8) : (w.store X bytes).type j = w.type j := rfl

@[simp] theorem nlink_store (bytes : List UInt8) : (w.store X bytes).nlink j = w.nlink j := rfl

@[simp] theorem type_resize (size : Nat) (addrs : Nat → Nat) :
    (w.resize X size addrs).type j = w.type j := by
  by_cases here : j = X
  · subst here
    simp [World.type, World.resize]
  · simp [World.type, World.resize, here]

@[simp] theorem nlink_resize (size : Nat) (addrs : Nat → Nat) :
    (w.resize X size addrs).nlink j = w.nlink j := by
  by_cases here : j = X
  · subst here
    simp [World.nlink, World.resize]
  · simp [World.nlink, World.resize, here]

@[simp] theorem type_change (c : Change) : (w.change X c).type j = w.type j := by
  by_cases here : j = X
  · subst here
    cases c <;> simp [World.type, World.change, Change.apply]
  · simp [World.type, World.change, here]

theorem nlink_change (c : Change) :
    (w.change X c).nlink j = if j = X then (c.apply (w.inode X)).nlink else w.nlink j := by
  by_cases here : j = X
  · subst here
    simp [World.nlink, World.change]
  · simp [World.nlink, World.change, here]

theorem type_reset (din : Dinode) :
    (w.reset X din).type j = if j = X then din.type else w.type j := by
  by_cases here : j = X
  · subst here
    simp [World.type, World.reset]
  · simp [World.type, World.reset, here]

theorem nlink_reset (din : Dinode) :
    (w.reset X din).nlink j = if j = X then din.nlink else w.nlink j := by
  by_cases here : j = X
  · subst here
    simp [World.nlink, World.reset]
  · simp [World.nlink, World.reset, here]

end Changes

section Steps

variable {w w' : World} {P X : Nat} {name : List UInt8} {found : Option (Nat × Nat)}

/-- `dirlookup`: the inum, and the slot that unlink would clear. -/
def World.lookup (w : World) (P : Nat) (name : List UInt8) : World × Option (Nat × Nat) :=
  if namecacheLookup w.cache ROOTDEV P name ≠ 0 then
    (w, some (namecacheLookup w.cache ROOTDEV P name, 0))
  else
    match scan name (w.entries P) with
    | some (k, I) => (w.fill P name I, some (I, k))
    | none => (w, none)

inductive Lookup (w : World) (P : Nat) (name : List UInt8) : World → Option (Nat × Nat) → Prop
  | cached {I : Nat} (hit : namecacheLookup w.cache ROOTDEV P name = I) (nonzero : I ≠ 0) :
      Lookup w P name w (some (I, 0))
  | found {I k : Nat} (miss : namecacheLookup w.cache ROOTDEV P name = 0)
      (there : scan name (w.entries P) = some (k, I)) : Lookup w P name (w.fill P name I)
      (some (I, k))
  | missing (miss : namecacheLookup w.cache ROOTDEV P name = 0)
      (absent : scan name (w.entries P) = none) : Lookup w P name w none

theorem Lookup.of_none (lookup : Lookup w P name w' found) (none : found = none) :
    w' = w ∧ namecacheLookup w.cache ROOTDEV P name = 0 ∧ scan name (w.entries P) =
      Option.none := by
  cases lookup with
  | cached hit nonzero => cases none
  | found miss there => cases none
  | missing miss absent => exact ⟨rfl, miss, absent⟩

theorem Lookup.of_some {I k : Nat}
    (lookup : Lookup w P name w' found) (some : found = some (I, k)) :
    (w' = w ∧ namecacheLookup w.cache ROOTDEV P name = I ∧ I ≠ 0 ∧ k = 0) ∨
      (w' = w.fill P name I ∧ namecacheLookup w.cache ROOTDEV P name = 0 ∧
        scan name (w.entries P) = Option.some (k, I)) := by
  cases lookup with
  | cached hit nonzero =>
    grind
  | found miss there =>
    grind
  | missing miss absent => cases some

theorem Lookup.eq (lookup : Lookup w P name w' found) : w.lookup P name = (w', found) := by
  unfold World.lookup
  cases lookup with
  | cached hit nonzero => rw [hit, if_pos nonzero]
  | found miss there => rw [if_neg (fun hit => hit miss), there]
  | missing miss absent => rw [if_neg (fun hit => hit miss), absent]

/-- The walk of `namex` from inode `X`, when it frees nothing. -/
def World.walk (parent : Bool) : World → Nat → List (List UInt8) → World × Option (Nat × List UInt8)
  | w, X, [] => (w, if parent then none else some (X, []))
  | w, X, name :: rest =>
    if w.type X ≠ .dir then (w, none)
    else if parent = true ∧ rest = [] then (w, some (X, name))
    else
      match w.lookup X name with
      | (w1, some (I, _)) => World.walk parent w1 I rest
      | (w1, none) => (w1, none)

/-- `iput`: an inode without links is freed with the last reference to it. -/
def Drop (used : Nat → Prop) (w : World) (X : Nat) (w' : World) : Prop :=
  w' = w ∨ w.type X ≠ .free ∧ w.nlink X = 0 ∧ ¬ used X ∧
    ∃ addrs, w' = w.reset X ((w.inode X).freed addrs)

theorem Drop.mono {used : Nat → Prop} (drop : Drop more w X w')
    (imply : ∀ Y, used Y → more Y) : Drop used w X w' := by
  rcases drop with same | ⟨allocated, nlink, unused, freed⟩
  · exact Or.inl same
  · exact Or.inr ⟨allocated, nlink, fun use => unused (imply X use), freed⟩

/-- Somebody uses the inode, or it is `X`. -/
def With (used : Nat → Prop) (X : Nat) : Nat → Prop := fun Y => used Y ∨ Y = X

/-- A `dirlink` that succeeds. -/
structure Linked (w : World) (P : Nat) (name : List UInt8) (I : Nat) (w' : World) : Prop where
  dir : w.type P = .dir
  miss : namecacheLookup w.cache ROOTDEV P name = 0
  absent : scan name (w.entries P) = none
  eq : ∃ size addrs, w' =
    ((w.put P (firstFree (w.entries P)) (newEntry name I)).resize P size addrs).fill P name I

/-- The loop of `namex` from inode `X`. -/
inductive Names (used : Nat → Prop) (parent : Bool) :
    World → Nat → List (List UInt8) → World → Option (Nat × List UInt8) → Prop
  | done {w : World} {X : Nat} (whole : parent = false) : Names used parent w X [] w (some (X, []))
  | noParent {w w' : World} {X : Nat} (asked : parent = true) (drop : Drop used w X w') :
      Names used parent w X [] w' none
  | notDir {w w' : World} {X : Nat} {name : List UInt8} {rest : List (List UInt8)}
      (other : w.type X ≠ .dir) (drop : Drop used w X w') :
      Names used parent w X (name :: rest) w' none
  | stop {w : World} {X : Nat} {name : List UInt8} (asked : parent = true) (dir : w.type X = .dir) :
      Names used parent w X [name] w (some (X, name))
  | missing {w w' : World} {X : Nat} {name : List UInt8} {rest : List (List UInt8)}
      (goes : ¬ (parent = true ∧ rest = [])) (dir : w.type X = .dir)
      (lookup : Lookup w X name w none)
      (drop : Drop used w X w') : Names used parent w X (name :: rest) w' none
  | next {w w1 w2 w' : World} {X I k : Nat} {name : List UInt8} {rest : List (List UInt8)}
      {found : Option (Nat × List UInt8)} (goes : ¬ (parent = true ∧ rest = []))
      (dir : w.type X = .dir)
      (lookup : Lookup w X name w1 (some (I, k))) (drop : Drop (With used I) w1 X w2)
      (walk : Names used parent w2 I rest w' found) : Names used parent w X (name :: rest) w' found

/-- The inode that `ialloc` takes. -/
def World.vacant (w : World) : Option Nat :=
  (List.range' 1 (NINODES - 1)).find? fun inum => w.type inum = .free

theorem vacant_spec (found : w.vacant = some X) : 0 < X ∧ X < NINODES ∧ w.type X = .free := by
  have free := List.find?_some found
  have member := List.mem_of_find?_eq_some found
  grind

/-- What `create` makes of the inode `new` that it has from `ialloc`. -/
structure Fresh (new din : Dinode) : Prop where
  type : din.type = new.type
  nlink : din.nlink = 1
  uid : din.uid = new.uid
  gid : din.gid = new.gid
  mode : din.mode = new.mode

/-- `create` makes inode `X`, with "." and ".." in it if it is a directory. -/
def Begins (new : Dinode) (w : World) (P X : Nat) (w' : World) : Prop :=
  ∃ din, Fresh new din ∧
    if new.type = .dir then
      ∃ w1, Linked ((w.reset X din).change P .link) X [46] X w1 ∧ Linked w1 X [46, 46] P w'
    else w' = w.reset X din

/-- `create` from directory `X`. -/
inductive Creates (used : Nat → Prop) (new : Dinode) (w : World) (X : Nat)
    (names : List (List UInt8)) :
    World → Option Nat → Prop
  | lost {w' : World} (walk : Names used true w X names w' none) :
      Creates used new w X names w' none
  | opened {w1 w2 w' : World} {P I k : Nat} {name : List UInt8}
      (walk : Names used true w X names w1 (some (P, name))) (dir : w1.type P = .dir)
      (lookup : Lookup w1 P name w2 (some (I, k))) (drop : Drop (With used I) w2 P w')
      (file : new.type = .file ∧ w'.type I = .file) : Creates used new w X names w' (some I)
  | refused {w1 w2 w3 w' : World} {P I k : Nat} {name : List UInt8}
      (walk : Names used true w X names w1 (some (P, name))) (dir : w1.type P = .dir)
      (lookup : Lookup w1 P name w2 (some (I, k))) (dropParent : Drop (With used I) w2 P w3)
      (drop : Drop used w3 I w') : Creates used new w X names w' none
  | made {w1 w2 w3 w' : World} {P I : Nat} {name : List UInt8}
      (walk : Names used true w X names w1 (some (P, name))) (dir : w1.type P = .dir)
      (lookup : Lookup w1 P name w1 none) (vacant : w1.vacant = some I)
      (begins : Begins new w1 P I w2)
      (links : Linked w2 P name I w3) (drop : Drop (With used I) w3 P w') :
      Creates used new w X names w' (some I)

/-- `sys_link` with the two starts of its walks. -/
inductive Links (used : Nat → Prop) (w : World) (X : Nat) (old : List (List UInt8)) (Y : Nat)
    (new : List (List UInt8)) : World → Int → Prop
  | lost {w' : World} (walk : Names used false w X old w' none) : Links used w X old Y new w' (-1)
  | directory {w1 w' : World} {I : Nat} {name : List UInt8}
      (walk : Names used false w X old w1 (some (I, name))) (dir : w1.type I = .dir)
      (drop : Drop used w1 I w') : Links used w X old Y new w' (-1)
  | noParent {w1 w2 w' : World} {I : Nat} {name : List UInt8}
      (walk : Names used false w X old w1 (some (I, name))) (other : w1.type I ≠ .dir)
      (allocated : w1.type I ≠ .free) (second : Names (With used I) true (w1.change I .link) Y
      new w2 none) (drop : Drop used (w2.change I .unlink) I w') : Links used w X old Y new w' (-1)
  | taken {w1 w2 w3 w4 w5 w' : World} {I P J k : Nat} {name last : List UInt8}
      (walk : Names used false w X old w1 (some (I, name))) (other : w1.type I ≠ .dir)
      (allocated : w1.type I ≠ .free)
      (second : Names (With used I) true (w1.change I .link) Y new w2 (some (P, last)))
      (dir : w2.type P = .dir) (lookup : Lookup w2 P last w3 (some (J, k)))
      (dropFound : Drop (With (With used I) P) w3 J w4) (dropParent : Drop (With used I) w4 P w5)
      (drop : Drop used (w5.change I .unlink) I w') : Links used w X old Y new w' (-1)
  | linked {w1 w2 w3 w4 w' : World} {I P : Nat} {name last : List UInt8}
      (walk : Names used false w X old w1 (some (I, name))) (other : w1.type I ≠ .dir)
      (allocated : w1.type I ≠ .free)
      (second : Names (With used I) true (w1.change I .link) Y new w2 (some (P, last)))
      (links : Linked w2 P last I w3) (dropParent : Drop (With used I) w3 P w4)
      (drop : Drop used w4 I w') : Links used w X old Y new w' 0

/-- The directory has no entry in use behind its first two. -/
def Empty (ents : List Dirent) : Prop := ∀ de ∈ ents.drop 2, de.inum = 0

/-- The name of a path element that unlink refuses. -/
def Dots (name : List UInt8) : Prop := namecmp name [46] = 0 ∨ namecmp name [46, 46] = 0

instance (name : List UInt8) : Decidable (Dots name) := inferInstanceAs (Decidable (_ ∨ _))

/-- The removal of entry `k`, for inode `I`, from directory `P`. -/
structure Removes (used : Nat → Prop) (w : World) (P k I : Nat) (w' : World) : Prop where
  apart : I ≠ P
  allocated : w.type I ≠ .free
  positive : 1 ≤ w.nlink I
  empty : w.type I = .dir → Empty (w.entries I)
  inside : k ≤ (w.entries P).length
  steps : ∃ size addrs w1 w2,
    w1 = (let cleared := (((w.invalidate I).invalidate P).put P k Dirent.zero).resize P size addrs
      if w.type I = .dir then cleared.change P .unlink else cleared) ∧
    Drop (With used I) w1 P w2 ∧ Drop used (w2.change I .unlink) I w'

/-- `sys_unlink`. -/
inductive Unlinks (used : Nat → Prop) (w : World) (X : Nat) (names : List (List UInt8)) :
    World → Int → Prop
  | lost {w' : World} (walk : Names used true w X names w' none) : Unlinks used w X names w' (-1)
  | dots {w1 w' : World} {P : Nat} {name : List UInt8}
      (walk : Names used true w X names w1 (some (P, name))) (refused : Dots name)
      (drop : Drop used w1 P w') : Unlinks used w X names w' (-1)
  | missing {w1 w' : World} {P : Nat} {name : List UInt8}
      (walk : Names used true w X names w1 (some (P, name))) (drop : Drop used w1 P w') :
      Unlinks used w X names w' (-1)
  | notEmpty {w1 w2 w3 w' : World} {P I k : Nat} {name : List UInt8}
      (walk : Names used true w X names w1 (some (P, name))) (dir : w1.type P = .dir)
      (other : ¬ Dots name)
      (lookup : Lookup w1 P name w2 (some (I, k))) (dropFound : Drop (With used P) w2 I w3)
      (drop : Drop used w3 P w') : Unlinks used w X names w' (-1)
  | removed {w1 w2 w' : World} {P I k : Nat} {name : List UInt8}
      (walk : Names used true w X names w1 (some (P, name))) (dir : w1.type P = .dir)
      (other : ¬ Dots name)
      (lookup : Lookup w1 P name w2 (some (I, k))) (removes : Removes used w2 P k I w') :
      Unlinks used w X names w' 0

/-- Any number of dropped references. -/
inductive Drops : World → World → Prop
  | refl (w : World) : Drops w w
  | step {w w1 w' : World} {used : Nat → Prop} {X : Nat} (drop : Drop used w X w1)
      (rest : Drops w1 w') : Drops w w'

theorem Drops.one {used : Nat → Prop} (drop : Drop used w X w') : Drops w w' :=
  Drops.step drop (Drops.refl w')

theorem Drops.trans {w1 : World} (first : Drops w w1) (second : Drops w1 w') : Drops w w' := by
  induction first with
  | refl => exact second
  | step drop _ ih => exact Drops.step drop (ih second)

/-- Any number of writes of files. -/
inductive Writes : World → World → Prop
  | refl (w : World) : Writes w w
  | step {w w1 w' : World} {X size : Nat} {addrs : Nat → Nat} {bytes : List UInt8}
      (before : Writes w w1)
      (file : w1.type X ≠ .dir) (wrote : w' = (w1.store X bytes).resize X size addrs) : Writes w w'

theorem Writes.trans {w1 : World} (first : Writes w w1) (second : Writes w1 w') : Writes w w' := by
  induction second with
  | refl => exact first
  | step _ file wrote ih => exact Writes.step ih file wrote

/-- A call that looks the path up, does something to the inode there and drops it. -/
inductive Visits (used : Nat → Prop) (act : World → Nat → World → Int → Prop) (w : World) (X : Nat)
    (names : List (List UInt8)) : World → Int → Prop
  | lost {w' : World} (walk : Names used false w X names w' none) :
      Visits used act w X names w' (-1)
  | acts {w1 w2 w' : World} {I : Nat} {name : List UInt8} {r : Int}
      (walk : Names used false w X names w1 (some (I, name))) (acted : act w1 I w2 r)
      (drop : Drop used w2 I w') : Visits used act w X names w' r

/-- `sys_chdir`: the directory that the process leaves is dropped. -/
inductive Enters (used : Nat → Prop) (w : World) (X : Nat) (names : List (List UInt8)) :
    World → Int → Prop
  | refused {w' : World} (visits : Visits used (fun w _ w' r => w' = w ∧ r = -1) w X
      names w' (-1)) : Enters used w X names w' (-1)
  | entered {w1 w' : World} {I : Nat} {name : List UInt8}
      (walk : Names used false w X names w1 (some (I, name))) (dir : w1.type I = .dir)
      (drops : Drops w1 w') : Enters used w X names w' 0

/-- `sys_mkdir` and `sys_mknod`. -/
inductive Makes (used : Nat → Prop) (new : Dinode) (w : World) (X : Nat)
    (names : List (List UInt8)) :
    World → Int → Prop
  | failed {w' : World} (creates : Creates used new w X names w' none) :
      Makes used new w X names w' (-1)
  | done {w1 w' : World} {I : Nat} (creates : Creates used new w X names w1 (some I))
      (drop : Drop used w1 I w') : Makes used new w X names w' 0

/-- The inode that `sys_open` opens; without O_CREATE it refuses some. -/
inductive OpensInode (used : Nat → Prop) (create : Prop) (refuses : Dinode → Prop) (new : Dinode)
    (w : World) (X : Nat) (names : List (List UInt8)) : World → Option Nat → Prop
  | created {w' : World} {found : Option Nat} (asked : create)
      (creates : Creates used new w X names w' found) : OpensInode used create refuses new w X
      names w' found
  | lost {w' : World} (plain : ¬ create) (walk : Names used false w X names w' none) :
      OpensInode used create refuses new w X names w' none
  | refused {w1 w' : World} {I : Nat} {name : List UInt8} (plain : ¬ create)
      (walk : Names used false w X names w1 (some (I, name))) (denied : refuses (w1.inode I))
      (drop : Drop used w1 I w') : OpensInode used create refuses new w X names w' none
  | found {w' : World} {I : Nat} {name : List UInt8} (plain : ¬ create)
      (walk : Names used false w X names w' (some (I, name))) (granted : ¬ refuses (w'.inode I)) :
      OpensInode used create refuses new w X names w' (some I)

/-- `sys_open`; it needs a free open file and a free descriptor. -/
inductive Opens (used : Nat → Prop) (create room : Prop) (refuses : Dinode → Prop) (new : Dinode)
    (w : World) (X : Nat) (names : List (List UInt8)) : World → Int → Prop
  | failed {w' : World} (opened : OpensInode used create refuses new w X names w' none) :
      Opens used create room refuses new w X names w' (-1)
  | full {w1 w' : World} {I : Nat} (opened : OpensInode used create refuses new w X names w1
      (some I)) (none : ¬ room)
      (drop : Drop used w1 I w') : Opens used create room refuses new w X names w' (-1)
  | done {w' : World} {I : Nat} {r : Int} (opened : OpensInode used create refuses new w X
      names w' (some I))
      (some : room) (descriptor : 0 ≤ r) : Opens used create room refuses new w X names w' r

end Steps

section Types

variable {used : Nat → Prop} {w w' : World} {X I P : Nat} {name : List UInt8}

/-- An inode that stays in use keeps its type. -/
theorem Drop.type_used (drop : Drop used w X w') (use : used I) : w'.type I = w.type I := by
  rcases drop with rfl | ⟨_, _, unused, _, rfl⟩
  · rfl
  · rw [type_reset, if_neg fun same : I = X => unused (same ▸ use)]

theorem Writes.type (writes : Writes w w') (j : Nat) : w'.type j = w.type j := by
  induction writes with
  | refl => rfl
  | step _ _ wrote ih => rw [wrote, type_resize, type_store, ih]

theorem Lookup.type {found : Option (Nat × Nat)} (lookup : Lookup w P name w' found) (j : Nat) :
    w'.type j = w.type j := by
  cases lookup <;> rfl

theorem Names.type_used {found : Option (Nat × List UInt8)}
    (use : used I) (walk : Names used parent w X names w' found) : w'.type I = w.type I := by
  induction walk with
  | done _ => rfl
  | noParent _ drop => exact drop.type_used use
  | notDir _ drop => exact drop.type_used use
  | stop _ _ => rfl
  | missing _ _ _ drop => exact drop.type_used use
  | next _ _ lookup drop _ ih => rw [ih, drop.type_used (Or.inl use), lookup.type]

theorem Drop.linked (drop : Drop used w X w') (some : w.nlink X ≠ 0) : w' = w := by
  rcases drop with same | ⟨_, zero, _⟩
  · exact same
  · exact (some zero).elim

theorem Drop.nlink_of_ne (drop : Drop used w X w') {j : Nat} (apart : j ≠ X) :
    w'.nlink j = w.nlink j := by
  rcases drop with rfl | ⟨_, _, _, _, rfl⟩
  · rfl
  · rw [nlink_reset, if_neg apart]

theorem Linked.nlink (linked : Linked w P name I w') (j : Nat) : w'.nlink j = w.nlink j := by
  obtain ⟨size, addrs, rfl⟩ := linked.eq
  exact nlink_resize _ _ _ _ _

theorem Linked.type (linked : Linked w P name I w') (j : Nat) : w'.type j = w.type j := by
  obtain ⟨size, addrs, rfl⟩ := linked.eq
  exact type_resize _ _ _ _ _

theorem Begins.type (begins : Begins new w P X w') (j : Nat) :
    w'.type j = if j = X then new.type else w.type j := by
  obtain ⟨din, fresh, begins⟩ := begins
  rw [← fresh.type]
  split at begins
  · obtain ⟨w1, dot, dotdot⟩ := begins
    rw [dotdot.type, dot.type, type_change, type_reset]
  · rw [begins, type_reset]

theorem Begins.nlink (begins : Begins new w P X w') (apart : X ≠ P) : w'.nlink X = 1 := by
  obtain ⟨din, fresh, begins⟩ := begins
  split at begins
  · obtain ⟨w1, dot, dotdot⟩ := begins
    rw [dotdot.nlink, dot.nlink, nlink_change, if_neg apart, nlink_reset, if_pos rfl, fresh.nlink]
  · rw [begins, nlink_reset, if_pos rfl, fresh.nlink]

end Types

section Still

/-- Each inode without links is in use. -/
def NoOrphans (used : Nat → Prop) (w : World) : Prop :=
  ∀ X, w.type X ≠ .free → w.nlink X = 0 → used X

/-- Nothing changed but the name cache. -/
def Recached (w w' : World) : Prop := ∃ cache, w' = { w with cache := cache }

theorem Recached.refl (w : World) : Recached w w := ⟨w.cache, rfl⟩

theorem Recached.trans {w w1 w' : World} (first : Recached w w1) (second : Recached w1 w') :
    Recached w w' := by
  obtain ⟨_, rfl⟩ := first
  obtain ⟨cache, rfl⟩ := second
  exact ⟨cache, rfl⟩

theorem Recached.fill (w : World) (P : Nat) (name : List UInt8) (I : Nat) :
    Recached w (w.fill P name I) :=
  ⟨_, rfl⟩

variable {used : Nat → Prop} {w w' : World} {X P : Nat} {name : List UInt8}

theorem NoOrphans.mono (none : NoOrphans used w) (imply : ∀ Y, used Y → more Y) :
    NoOrphans more w :=
  fun X allocated nlink => imply X (none X allocated nlink)

theorem NoOrphans.with (none : NoOrphans used w) (I : Nat) : NoOrphans (With used I) w :=
  none.mono fun _ use => Or.inl use

theorem NoOrphans.recached (none : NoOrphans used w) (same : Recached w w') :
    NoOrphans used w' := by
  obtain ⟨_, rfl⟩ := same
  exact none

theorem NoOrphans.congr (none : NoOrphans used w) (type : ∀ j, w'.type j = w.type j)
    (nlink : ∀ j, w'.nlink j = w.nlink j) : NoOrphans used w' := by
  intro X allocated zero
  rw [type] at allocated
  rw [nlink] at zero
  exact none X allocated zero

/-- An inode that the call uses itself may lose its links. -/
theorem NoOrphans.change (none : NoOrphans used w) (I : Nat) (c : Change) :
    NoOrphans (With used I) (w.change I c) := by
  intro X allocated nlink
  by_cases here : X = I
  · exact Or.inr here
  · rw [type_change] at allocated
    rw [nlink_change, if_neg here] at nlink
    exact Or.inl (none X allocated nlink)

theorem Drop.still (drop : Drop used w X w') (none : NoOrphans used w) : w' = w := by
  rcases drop with same | ⟨allocated, nlink, unused, _⟩
  · exact same
  · exact (unused (none X allocated nlink)).elim

theorem Lookup.recached {found : Option (Nat × Nat)} (lookup : Lookup w P name w' found) :
    Recached w w' := by
  cases lookup with
  | cached | missing => exact Recached.refl w
  | found => exact Recached.fill _ _ _ _

/-- Where no inode is without a user, a walk frees none. -/
theorem Names.eq_walk {found : Option (Nat × List UInt8)}
    (walk : Names used parent w X names w' found) (none : NoOrphans used w) :
    w.walk parent X names = (w', found) ∧ Recached w w' := by
  induction walk with
  | done whole => exact ⟨by rw [World.walk, whole]; rfl, Recached.refl _⟩
  | noParent asked drop =>
    obtain rfl := drop.still none
    exact ⟨by rw [World.walk, asked]; rfl, Recached.refl _⟩
  | notDir other drop =>
    obtain rfl := drop.still none
    exact ⟨by rw [World.walk, if_pos other], Recached.refl _⟩
  | stop asked dir =>
    exact ⟨by rw [World.walk, if_neg (fun other => other dir), if_pos ⟨asked, rfl⟩],
      Recached.refl _⟩
  | missing goes dir lookup drop =>
    obtain rfl := drop.still none
    exact ⟨by rw [World.walk, if_neg (fun other => other dir), if_neg goes, lookup.eq],
      Recached.refl _⟩
  | next goes dir lookup drop _ ih =>
    obtain rfl := drop.still ((none.recached lookup.recached).with _)
    obtain ⟨later, same⟩ := ih (none.recached lookup.recached)
    refine ⟨?_, lookup.recached.trans same⟩
    rw [World.walk, if_neg (fun other => other dir), if_neg goes, lookup.eq]
    exact later

/-- The parent that a walk ends in is a directory. -/
theorem Names.dir (walk : Names used true w X names w' (some (P, name))) : w'.type P = .dir := by
  generalize result : some (P, name) = found at walk
  induction walk with
  | done whole => cases whole
  | noParent | notDir | missing => cases result
  | stop _ dir =>
    cases result
    exact dir
  | next _ _ _ _ _ ih => exact ih result

end Still

section SameBut

variable {used off : Nat → Prop} {w w' : World} {X P I k : Nat} {name : List UInt8}

/-- Of the inodes that are not `off`, and of the cache, the world shows the same. -/
structure SameBut (off : Nat → Prop) (w w' : World) : Prop where
  type : ∀ j, ¬ off j → w'.type j = w.type j
  nlink : ∀ j, ¬ off j → w'.nlink j = w.nlink j
  entries : ∀ j, ¬ off j → w'.entries j = w.entries j
  cache : w'.cache = w.cache

theorem SameBut.trans {w1 : World} (first : SameBut off w w1) (second : SameBut off w1 w') :
    SameBut off w w' :=
  ⟨fun j other => (second.type j other).trans (first.type j other),
    fun j other => (second.nlink j other).trans (first.nlink j other),
    fun j other => (second.entries j other).trans (first.entries j other),
    second.cache.trans first.cache⟩

theorem sameBut_reset (w : World) (din : Dinode) (here : off X) :
    SameBut off w (w.reset X din) := by
  have apart : ∀ j, ¬ off j → j ≠ X := fun j other same => other (same ▸ here)
  refine ⟨fun j other => ?_, fun j other => ?_, fun j other =>
    Function.update_of_ne (apart j other) _ _, rfl⟩
  · rw [type_reset, if_neg (apart j other)]
  · rw [nlink_reset, if_neg (apart j other)]

theorem sameBut_drop (drop : Drop used w X w') (here : off X) : SameBut off w w' := by
  rcases drop with rfl | ⟨_, _, _, addrs, rfl⟩
  · exact ⟨fun _ _ => rfl, fun _ _ => rfl, fun _ _ => rfl, rfl⟩
  · exact sameBut_reset w _ here

theorem sameBut_change (w : World) (c : Change) (here : off X) : SameBut off w (w.change X c) := by
  refine ⟨fun j _ => type_change _ _ _ _, fun j other => ?_, fun _ _ => rfl, rfl⟩
  rw [nlink_change, if_neg fun same : j = X => other (same ▸ here)]

theorem sameBut_put (w : World) (k : Nat) (de : Dirent) (size : Nat) (addrs : Nat → Nat)
    (here : off X) :
    SameBut off w ((w.put X k de).resize X size addrs) := by
  refine ⟨fun j _ => type_resize _ _ _ _ _, fun j _ => nlink_resize _ _ _ _ _,
    fun j other => ?_, rfl⟩
  exact Function.update_of_ne (fun same : j = X => other (same ▸ here)) _ _

theorem Removes.sameBut (removes : Removes used w P k I w') :
    SameBut (fun j => j = I ∨ j = P) ((w.invalidate I).invalidate P) w' := by
  obtain ⟨size, addrs, w1, w2, cleared, dropParent, drop⟩ := removes.steps
  have first : SameBut (fun j => j = I ∨ j = P) ((w.invalidate I).invalidate P) w1 := by
    rw [cleared]
    split
    · exact (sameBut_put _ _ _ _ _ (Or.inr rfl)).trans (sameBut_change _ _ (Or.inr rfl))
    · exact sameBut_put _ _ _ _ _ (Or.inr rfl)
  exact first.trans ((sameBut_drop dropParent (Or.inr rfl)).trans
    ((sameBut_change _ _ (Or.inl rfl)).trans (sameBut_drop drop (Or.inl rfl))))

theorem Linked.entries (linked : Linked w P name I w') (j : Nat) : w'.entries j =
    if j = P then putEntry (w.entries P) (firstFree (w.entries P)) (newEntry name I)
      else w.entries j := by
  obtain ⟨size, addrs, rfl⟩ := linked.eq
  change Function.update w.entries P _ j = _
  rw [Function.update_apply]

/-- The names that were there are still found. -/
theorem Linked.scan_kept (linked : Linked w P name I w') {n : List UInt8} {D J : Nat}
    (there : scan n (w.entries D) = some (k, J)) : scan n (w'.entries D) = some (k, J) := by
  rw [linked.entries]
  grind [scan_put_other, absent]

theorem Linked.scan_self (linked : Linked w P name I w') (nonzero : I ≠ 0) :
    scan name (w'.entries P) = some (firstFree (w.entries P), I) := by
  rw [linked.entries, if_pos rfl]
  exact scan_put_self linked.absent nonzero

theorem Linked.cache (linked : Linked w P name I w') :
    w'.cache = namecacheAdd w.cache ROOTDEV P name I := by
  obtain ⟨size, addrs, rfl⟩ := linked.eq
  rfl

end SameBut

section Cached

variable {w w' : World} {e : Entry} {P I k : Nat} {name : List UInt8}

/-- An entry of the name cache that is in the directory, too. -/
structure Matches (w : World) (e : Entry) : Prop where
  dev : e.dev = ROOTDEV
  there : (scan e.name (w.entries e.parentInum)).map Prod.snd = some e.inum

theorem Matches.found (right : Matches w e) :
    ∃ k, scan e.name (w.entries e.parentInum) = some (k, e.inum) := by
  obtain ⟨⟨k, I⟩, found, inum⟩ := Option.map_eq_some_iff.mp right.there
  exact ⟨k, by rw [found, ← inum]⟩

theorem Matches.inum (right : Matches w e) : e.inum ≠ 0 := by
  obtain ⟨k, found⟩ := right.found
  obtain ⟨de, _, is, used, _⟩ := scan_eq_some.mp found
  exact used ▸ is.1

theorem Matches.congr (right : Matches w e)
    (same : w'.entries e.parentInum = w.entries e.parentInum) : Matches w' e := by
  refine ⟨right.dev, ?_⟩
  rw [same]
  exact right.there

theorem Matches.linked (right : Matches w e) (linked : Linked w P name I w') : Matches w' e := by
  obtain ⟨k, found⟩ := right.found
  refine ⟨right.dev, ?_⟩
  rw [linked.scan_kept found]
  rfl

/-- An entry that was put into the cache for a name of the directory. -/
theorem matches_of_hits (hits : e.hits ROOTDEV P name = true) (inum : e.inum = I)
    (there : scan name (w.entries P) = some (k, I)) : Matches w e := by
  obtain ⟨_, dev, parent, same⟩ := (Entry.hits_iff e).mp hits
  refine ⟨dev, ?_⟩
  rw [parent, scan_congr same, there, inum]
  rfl

end Cached

end Xv6.Fs
