import Mathlib.Data.List.TakeWhile
import Xv6.Fs.LinkCount
import Xv6.Fs.Lookup
import Xv6.Fs.Slots

/- Path names: `namei` and `nameiparent` follow the components of a path through the directories,
whatever the name cache holds of them. -/
namespace Xv6.Fs

open Exec hiding panic
open Namecache CString

section Components

/-- The nonempty pieces of a string between its slashes. -/
def pieces (s : List UInt8) : List (List UInt8) := (s.splitOn 47).filter (· ≠ [])

/-- The components of a path, each cut off behind DIRSIZ bytes. -/
def components (path : List UInt8) :
    List (List UInt8) := (pieces (path.takeWhile (· ≠ 0))).map (List.take DIRSIZ)

/-- A word in front of a slash is a piece, if it is nonempty. -/
theorem pieces_slash {word : List UInt8} (inside : ∀ c ∈ word, c ≠ 47) (rest : List UInt8) :
    pieces (word ++ 47 :: rest) = [word].filter (· ≠ []) ++ pieces rest := by
  have noSlash : ∀ c ∈ word, (c == 47) = false := fun c member => by simpa using inside c member
  have first := List.splitOnP_append_cons_of_forall_mem noSlash 47 rfl rest
  rw [pieces, List.splitOn, first]
  exact List.filter_append [word] _

theorem pieces_slashes {slashes : List UInt8} (all : ∀ c ∈ slashes, c = 47) (s : List UInt8) :
    pieces (slashes ++ s) = pieces s := by
  induction slashes with
  | nil => rfl
  | cons c slashes ih =>
    obtain rfl := all c List.mem_cons_self
    rw [← ih fun d inside => all d (List.mem_cons_of_mem _ inside)]
    exact pieces_slash (fun _ inside => absurd inside List.not_mem_nil) _

theorem pieces_word {word tail : List UInt8} (nonempty : word ≠ []) (inside : ∀ c ∈ word, c ≠ 47)
    (ends : tail = [] ∨ tail.head? = some 47) : pieces (word ++ tail) = word :: pieces tail := by
  rcases ends with rfl | slash
  · have noSlash : 47 ∉ word := fun member => inside 47 member rfl
    rw [List.append_nil, pieces, List.splitOn_eq_singleton noSlash]
    simp [nonempty, pieces]
  · obtain ⟨rest, rfl⟩ : ∃ rest, tail = 47 :: rest := by
      cases tail with
      | nil => simp at slash
      | cons c rest => exact ⟨rest, by simpa using slash⟩
    have skipped := pieces_slashes (List.forall_mem_singleton.mpr rfl) rest
    rw [pieces_slash inside, ← skipped]
    simp [nonempty]

/-- The string at a pointer behind some bytes that are not NUL. -/
theorem string_append {front : List UInt8} (nonzero : ∀ c ∈ front, c ≠ 0) (path : List UInt8) :
    (front ++ path).takeWhile (· ≠ 0) = front ++ path.takeWhile (· ≠ 0) :=
  List.takeWhile_append_of_pos fun c inside => by simpa using nonzero c inside

theorem string_nil {path : List UInt8} (ends : deref path = 0) : path.takeWhile (· ≠ 0) = [] := by
  cases path with
  | nil => rfl
  | cons c rest =>
    obtain rfl : c = 0 := ends
    rfl

/-- Slashes in front of a path change nothing. -/
theorem components_dropWhile (path : List UInt8) :
    components (path.dropWhile (· = 47)) = components path := by
  have slashes : ∀ c ∈ path.takeWhile (· = 47), c = 47 := fun c inside => by
    simpa using List.mem_takeWhile_imp inside
  have nonzero : ∀ c ∈ path.takeWhile (· = 47), c ≠ 0 := fun c inside => by simp [slashes c inside]
  have split : path.takeWhile (· ≠ 0) = path.takeWhile (· = 47) ++
    (path.dropWhile (· = 47)).takeWhile (· ≠ 0) := by
    rw [← string_append nonzero, List.takeWhile_append_dropWhile]
  rw [components, components, split, pieces_slashes slashes]

/-- A component goes up to a slash or the end of the string. -/
theorem string_stops (q : List UInt8) :
    (q.dropWhile fun c => decide (c ≠ 47 ∧ c ≠ 0)).takeWhile (· ≠ 0) = [] ∨
    ((q.dropWhile fun c => decide (c ≠ 47 ∧ c ≠ 0)).takeWhile (· ≠ 0)).head? = some 47 := by
  have stopped := List.head?_dropWhile_not (fun c => decide (c ≠ 47 ∧ c ≠ 0)) q
  generalize q.dropWhile (fun c => decide (c ≠ 47 ∧ c ≠ 0)) = rest at stopped ⊢
  cases rest with
  | nil => exact Or.inl rfl
  | cons c tail =>
    have one : c = 47 ∨ c = 0 := by grind
    rcases one with rfl | rfl
    · exact Or.inr rfl
    · exact Or.inl rfl

/-- What `skipelem` takes is the first component, and it leaves the others. -/
theorem components_skipelem (path : List UInt8) : components path = match skipelem path with
    | some (name, rest) => name :: components rest
    | none => [] := by
  rw [← components_dropWhile path]
  unfold skipelem
  have noSlash := List.head?_dropWhile_not (fun c => decide (c = 47)) path
  generalize path.dropWhile (fun c => decide (c = 47)) = q at noSlash ⊢
  by_cases ends : deref q = 0
  · rw [if_pos ends, components, string_nil ends]
    rfl
  · rw [if_neg ends]
    dsimp only
    rw [components_dropWhile]
    have inside : ∀ c ∈ q.takeWhile (fun c => decide (c ≠ 47 ∧ c ≠ 0)), c ≠ 47 ∧ c ≠ 0 := by
      intro c member
      simpa using List.mem_takeWhile_imp member
    have nonempty : q.takeWhile (fun c => decide (c ≠ 47 ∧ c ≠ 0)) ≠ [] := by
      cases q with
      | nil => exact absurd rfl ends
      | cons c tail =>
        have other : c ≠ 47 := by simpa using noSlash
        have nonzero : c ≠ 0 := ends
        simp [other, nonzero]
    have whole : q.takeWhile (· ≠ 0) = q.takeWhile (fun c => decide (c ≠ 47 ∧ c ≠ 0)) ++
        (q.dropWhile fun c => decide (c ≠ 47 ∧ c ≠ 0)).takeWhile (· ≠ 0) := by
      rw [← string_append fun c member => (inside c member).2, List.takeWhile_append_dropWhile]
    rw [components, whole, pieces_word nonempty (fun c member => (inside c member).1)
      (string_stops q)]
    rfl

/-- `skipelem` splits the path at its slashes. -/
theorem elements_eq_components (path : List UInt8) : elements path = components path := by
  induction long : path.length using Nat.strong_induction_on generalizing path with
  | _ n ih =>
    rw [elements_eq, components_skipelem]
    cases taken : skipelem path with
    | none => rfl
    | some pair => exact congrArg (pair.1 :: ·) (ih _ (long ▸ skipelem_length taken) pair.2 rfl)

end Components

section Resolution

/-- The inode that some names lead to, from inode `X`. -/
def World.resolve (w : World) : Nat → List (List UInt8) → Option Nat
  | X, [] => some X
  | X, name :: rest =>
    if w.type X = .dir then
      match scan name (w.entries X) with
      | some (_, I) => World.resolve w I rest
      | none => none
    else none

/-- A file-system tree: the root is a directory, and the entries of directories are inodes. -/
structure Tree (w : World) : Prop where
  root : w.type ROOTINO = .dir
  named : Named w

variable {w w' : World} {X P : Nat} {name : List UInt8} {names : List (List UInt8)}

theorem Tree.found (tree : Tree w) {k I : Nat} (dir : w.type X = .dir)
    (found : scan name (w.entries X) = some (k, I)) :
    w.type I ≠ .free := by
  obtain ⟨de, there, is, rfl, -⟩ := scan_eq_some.mp found
  exact tree.named X dir de (List.mem_of_getElem? there) is.1

theorem resolve_cons (w : World) (X : Nat) (name : List UInt8) (rest : List (List UInt8)) :
    w.resolve X (name :: rest) =
      if w.type X = .dir then ((scan name (w.entries X)).map Prod.snd).bind (w.resolve · rest)
        else none := by
  rw [World.resolve]
  cases scan name (w.entries X) <;> rfl

theorem resolve_append (w : World) (X : Nat) (front names : List (List UInt8)) :
    w.resolve X (front ++ names) = (w.resolve X front).bind (w.resolve · names) := by
  induction front generalizing X with
  | nil => rfl
  | cons name rest ih =>
    rw [List.cons_append, resolve_cons, resolve_cons]
    split
    · cases (scan name (w.entries X)).map Prod.snd with
      | none => rfl
      | some I => exact ih I
    · rfl

theorem Recached.resolve (same : Recached w w') (X : Nat) (names : List (List UInt8)) :
    w'.resolve X names = w.resolve X names := by
  obtain ⟨cache, rfl⟩ := same
  induction names generalizing X with
  | nil => rfl
  | cons name rest ih =>
    rw [resolve_cons, resolve_cons]
    simp only [ih]
    rfl

/-- What a lookup leaves in the cache is in the directory. -/
theorem Lookup.matching {found : Option (Nat × Nat)} (lookup : Lookup w P name w' found)
    (matching : Matching w) :
    Matching w' := by
  cases lookup with
  | cached | missing => exact matching
  | @found I k miss there =>
    refine Cache.All.add (Cache.All.mono matching fun e _ right => right.congr rfl)
      fun e hits inum => ?_
    exact matches_of_hits hits inum there

theorem exists_lookup (w : World) (X : Nat) (name : List UInt8) :
    ∃ w1 found, Lookup w X name w1 found := by
  by_cases miss : namecacheLookup w.cache ROOTDEV X name = 0
  · cases there : scan name (w.entries X) with
    | none => exact ⟨w, none, .missing miss there⟩
    | some pair => exact ⟨_, _, .found miss there⟩
  · exact ⟨w, _, .cached rfl miss⟩

theorem lookup_spec (matching : Matching w) (X : Nat) (name : List UInt8) :
    Matching (w.lookup X name).1 ∧ Recached w (w.lookup X name).1 ∧
      (w.lookup X name).2.map Prod.fst = (scan name (w.entries X)).map Prod.snd := by
  obtain ⟨w1, found, lookup⟩ := exists_lookup w X name
  rw [lookup.eq]
  exact ⟨lookup.matching matching, lookup.recached, by rw [← matching.lookup_inum, lookup.eq]⟩

/-- With a coherent cache the walk of `namei` follows the directories. -/
theorem walk_eq_resolve (matching : Matching w) (X : Nat) (names : List (List UInt8)) :
    (w.walk false X names).2.map Prod.fst = w.resolve X names := by
  induction names generalizing w X with
  | nil => rfl
  | cons name rest ih =>
    rw [World.walk, resolve_cons]
    by_cases dir : w.type X = .dir
    · obtain ⟨later, same, found⟩ := lookup_spec matching X name
      rw [if_neg (not_not_intro dir), if_neg (fun asked => Bool.false_ne_true asked.1),
        if_pos dir, ← found]
      cases looked : w.lookup X name with
      | mk w1 result =>
        rw [looked] at later same
        cases result with
        | none => rfl
        | some pair => exact (ih later pair.1).trans (same.resolve pair.1 rest)
    · rw [if_pos dir, if_neg dir]
      rfl

/-- `nameiparent` stops in front of the last name, in a directory. -/
theorem walk_parent (matching : Matching w) (X : Nat) (front : List (List UInt8))
    (name : List UInt8) :
    (w.walk true X (front ++ [name])).2 =
      (w.resolve X front).bind fun P => if w.type P = .dir then some (P, name) else none := by
  induction front generalizing w X with
  | nil =>
    rw [List.nil_append, World.walk]
    by_cases dir : w.type X = .dir
    · simp [World.resolve, dir]
    · simp [World.resolve, dir]
  | cons first rest ih =>
    have goes : ¬(true = true ∧ rest ++ [name] = []) := by simp
    rw [List.cons_append, World.walk, resolve_cons]
    by_cases dir : w.type X = .dir
    · obtain ⟨later, same, found⟩ := lookup_spec matching X first
      rw [if_neg (not_not_intro dir), if_neg goes, if_pos dir, ← found]
      cases looked : w.lookup X first with
      | mk w1 result =>
        rw [looked] at later same
        cases result with
        | none => rfl
        | some pair =>
          have next := ih later pair.1
          rw [same.resolve] at next
          obtain ⟨cache, rfl⟩ := same
          exact next
    · rw [if_pos dir, if_neg dir]
      rfl

/-- The names lead nowhere if one of them is looked up in no directory, or in one that lacks it. -/
theorem resolve_eq_none_iff :
    w.resolve X names = none ↔ ∃ k Y, k < names.length ∧ w.resolve X (names.take k) = some Y ∧
    (w.type Y ≠ .dir ∨ ∀ name, names[k]? = some name → scan name (w.entries Y) = none) := by
  induction names generalizing X with
  | nil => simp [World.resolve]
  | cons name rest ih =>
    rw [resolve_cons]
    by_cases dir : w.type X = .dir
    · rw [if_pos dir]
      cases found : scan name (w.entries X) with
      | none =>
        refine iff_of_true rfl ⟨0, X, Nat.succ_pos _, rfl, Or.inr fun other here => ?_⟩
        obtain rfl : name = other := by simpa using here
        exact found
      | some pair =>
        have step : ∀ k, w.resolve X ((name :: rest).take (k + 1)) = w.resolve pair.2
          (rest.take k) := by
          grind [resolve_cons]
        refine (ih (X := pair.2)).trans ⟨?_, ?_⟩
        · rintro ⟨k, Y, inside, there, fails⟩
          exact ⟨k + 1, Y, Nat.succ_lt_succ inside, (step k).trans there, fails⟩
        · rintro ⟨_ | k, Y, inside, there, fails⟩
          · obtain rfl : X = Y := by simpa [World.resolve] using there
            rcases fails with other | lacks
            · exact absurd dir other
            · grind
          · exact ⟨k, Y, Nat.lt_of_succ_lt_succ inside, (step k).symm.trans there, fails⟩
    · rw [if_neg dir]
      exact iff_of_true rfl ⟨0, X, Nat.succ_pos _, rfl, Or.inl dir⟩

/-- On the way there are directories only. -/
theorem resolve_take {k : Nat} (there : w.resolve X names = some P) (inside : k < names.length) :
    ∃ Y, w.resolve X (names.take k) = some Y ∧ w.type Y = .dir := by
  rw [← List.take_append_drop k names, resolve_append] at there
  obtain ⟨Y, before, behind⟩ := Option.bind_eq_some_iff.mp there
  refine ⟨Y, before, ?_⟩
  grind [List.drop_eq_getElem_cons, resolve_cons]

end Resolution

section Calls

variable {allowed : Stops} {s : State} {p : Fin NPROC} {X : Nat} {w : World}
  {names : List (List UInt8)}

/-- All counts are as before, but for one more reference to the slot that was returned. -/
structure Counted (s s' : State) (found : Option (Fin NINODE)) : Prop where
  refs : ∀ j, (s'.icache j).ref = (s.icache j).ref + if found = some j then 1 else 0
  inums : ∀ j, 0 < (s.icache j).ref → (s'.icache j).inum = (s.icache j).inum

theorem Midway.kept {s' : State} (base : Base s) (mid : Midway s.outside p [] [] s') :
    Counted s s' none where
  refs j := by
    have before := (base.mid p).counted j
    have after := mid.counted j
    simp [before, after]
  inums j used := by
    have before := (base.mid p).counted j
    simp only [List.map_nil, List.count_nil] at before
    exact mid.steady j (by omega)

theorem Midway.took {s' : State} {ip : Fin NINODE} {I : Nat} (base : Base s)
    (mid : Midway s.outside p [(ip, I)] [] s') :
    Counted s s' (some ip) where
  refs j := by
    have before := (base.mid p).counted j
    have after := mid.counted j
    rw [after, before]
    by_cases here : ip = j <;> simp [here]
  inums j used := by
    have before := (base.mid p).counted j
    simp only [List.map_nil, List.count_nil] at before
    exact mid.steady j (by omega)

/-- What is known along a walk through a tree. -/
structure Touring (s : State) (w : World) (X : Nat) : Prop where
  same : Recached s.world w
  matching : Matching w
  allocated : w.type X ≠ .free

theorem tree_tour (base : Base s) (tree : Tree s.world) :
    Tour allowed s.outside.Used fun w X _ => Touring s w X where
  typed _ _ _ touring free := absurd free touring.allocated
  next w X name rest w1 I k w2 touring dir lookup drop := by
    have none := base.noOrphans.recached touring.same
    obtain rfl := drop.still ((none.recached lookup.recached).with I)
    have matching := lookup.matching touring.matching
    refine ⟨touring.same.trans lookup.recached, matching, ?_⟩
    have inum := touring.matching.lookup_inum X name
    rw [lookup.eq] at inum
    obtain ⟨⟨j, J⟩, found, rfl⟩ := Option.map_eq_some_iff.mp inum.symm
    obtain ⟨before, rfl⟩ := touring.same
    obtain ⟨behind, rfl⟩ := lookup.recached
    exact tree.found dir found

theorem tree_start (base : Base s) (tree : Tree s.world) (matching : Matching s.world)
    (running : (s.procs p).cwd ≠ none) (path : List UInt8) :
    Touring s s.world (s.outside.start p path) where
  same := Recached.refl _
  matching := matching
  allocated := base.start_allocated (fun free => by cases tree.root.symm.trans free) running path

/-- What `nameiparent` returns: the directory of the last component, and that component. -/
def World.parent (w : World) (X : Nat) (names : List (List UInt8)) : Option (Nat × List UInt8) :=
  names.getLast?.bind fun name =>
    (w.resolve X names.dropLast).bind fun P => if w.type P = .dir then some (P, name) else none

theorem walk_eq_parent (matching : Matching w) (X : Nat) (names : List (List UInt8)) :
    (w.walk true X names).2 = w.parent X names := by
  rcases List.eq_nil_or_concat' names with rfl | ⟨front, name, rfl⟩
  · rfl
  · rw [walk_parent matching, World.parent, List.getLast?_concat, List.dropLast_concat]
    rfl

/-- The last component, looked up in the directory that `nameiparent` returns. -/
def dirlookupParent (p : Fin NPROC) (path : List UInt8) : Exec State (Option (Fin NINODE)) := do
  match ← nameiparent p path with
  | none => return none
  | some (dp, name) =>
    ilock p dp
    let next ← dirlookup dp name
    iunlockput p dp
    return next.map Prod.fst

/-- The last component is an entry of the directory of the others. -/
theorem resolve_eq_parent (some : names ≠ []) :
    w.resolve X names = (w.parent X names).bind fun r =>
      (scan r.2 (w.entries r.1)).map Prod.snd := by
  rcases List.eq_nil_or_concat' names with rfl | ⟨front, name, rfl⟩
  · exact absurd rfl some
  · rw [resolve_append, World.parent, List.getLast?_concat, List.dropLast_concat]
    cases w.resolve X front with
    | none => rfl
    | some P =>
      rw [Option.bind_some, resolve_cons, Option.bind_some, Option.bind_some]
      split
      · rw [Option.bind_some]
        cases scan name (w.entries P) <;> rfl
      · rfl

section Walks

variable (roomy : s.outside.Roomy allowed 2) (base : Base s) (matching : Matching s.world)
  (tree : Tree s.world) (running : (s.procs p).cwd ≠ none) {path : List UInt8}

include roomy base matching tree running

/-- `namei` finds what the components of the path lead to, and takes a reference to it; only the
name cache changes. -/
theorem namei_arrives (path : List UInt8) : Spec allowed (namei p path) s fun found s' =>
    found.map (fun ip => (s'.icache ip).inum) =
      s.world.resolve (s.outside.start p path) (components path) ∧
    Midway s.outside p (found.toList.map fun ip => (ip, (s'.icache ip).inum)) [] s' ∧
    Recached s.world s'.world := by
  have start := tree_start base tree matching running path
  have cwd : s.outside.Running allowed p := Running.outside fun idle => absurd idle running
  refine (namei_step roomy (by decide) (tree_tour base tree) (inUse_nil _) path (fun _ => cwd)
    (base.mid p) start).mono fun found s' post => ?_
  rw [← elements_eq_components, ← walk_eq_resolve matching]
  cases found with
  | none =>
    obtain ⟨walk, mid⟩ := post
    obtain ⟨eq, same⟩ := walk.eq_walk base.noOrphans
    rw [eq]
    exact ⟨rfl, mid, same⟩
  | some ip =>
    obtain ⟨I, name, walk, mid, -⟩ := post
    obtain ⟨eq, same⟩ := walk.eq_walk base.noOrphans
    obtain rfl : (s'.icache ip).inum = I := mid.names _ List.mem_cons_self
    rw [eq]
    exact ⟨rfl, mid, same⟩

theorem namei_resolves (path : List UInt8) :
    Spec allowed (namei p path) s fun found s' => Counted s s' found ∧
      found.map (fun ip => (s'.icache ip).inum) =
        s.world.resolve (s.outside.start p path) (components path) := by
  refine (namei_arrives roomy base matching tree running path).mono ?_
  rintro found s' ⟨inode, mid, -⟩
  cases found with
  | none => exact ⟨mid.kept base, inode⟩
  | some ip => exact ⟨mid.took base, inode⟩

theorem namei_found
    (there : s.world.resolve (s.outside.start p path) (components path) = some X) :
    Spec allowed (namei p path) s fun found s' => ∃ ip, found = some ip ∧
      Midway s.outside p [(ip, X)] [] s' ∧ Recached s.world s'.world := by
  refine (namei_arrives roomy base matching tree running path).mono ?_
  rintro found s' ⟨inode, mid, same⟩
  rw [there] at inode
  obtain ⟨ip, rfl, rfl⟩ := Option.map_eq_some_iff.mp inode
  exact ⟨ip, rfl, mid, same⟩

theorem nameiparent_resolves (path : List UInt8) :
    Spec allowed (nameiparent p path) s fun found s' => Counted s s' (found.map Prod.fst) ∧
      found.map (fun r => ((s'.icache r.1).inum, r.2)) =
        s.world.parent (s.outside.start p path) (components path) := by
  have start := tree_start base tree matching running path
  have cwd : s.outside.Running allowed p := Running.outside fun idle => absurd idle running
  refine (nameiparent_step roomy (by decide) (tree_tour base tree) (inUse_nil _) path
    (fun _ => cwd) (base.mid p) start).mono ?_
  rintro found s' ⟨result, walk, arrives⟩
  rw [← elements_eq_components, ← walk_eq_parent matching, (walk.eq_walk base.noOrphans).1]
  match found, result, arrives with
  | none, none, mid => exact ⟨mid.kept base, rfl⟩
  | some (ip, name), some (P, last), ⟨same, mid, _⟩ =>
    refine ⟨mid.took base, congrArg some (Prod.ext ?_ same)⟩
    exact mid.names _ List.mem_cons_self

theorem dirlookupParent_resolves (some : components path ≠ []) :
    Spec allowed (dirlookupParent p path) s fun found s' => Counted s s' found ∧
      found.map (fun ip => (s'.icache ip).inum) =
        s.world.resolve (s.outside.start p path) (components path) := by
  have start := tree_start base tree matching running path
  have cwd : s.outside.Running allowed p := Running.outside fun idle => absurd idle running
  rw [resolve_eq_parent some, ← elements_eq_components, ← walk_eq_parent matching]
  refine (nameiparent_step roomy (by decide) (tree_tour base tree) (inUse_nil _) path
    (fun _ => cwd) (base.mid p) start).bind ?_
  rintro found s1 ⟨result, walk, arrives⟩
  rw [(walk.eq_walk base.noOrphans).1]
  match found, result, arrives, walk with
  | none, none, mid, _ => exact Spec.pure ⟨mid.kept base, rfl⟩
  | .some (dp, name), .some (P, last), ⟨same, mid, touring⟩, walk =>
    obtain rfl : name = last := same
    have dir := walk.dir
    refine Spec.bind (ilock_step mid List.mem_cons_self none_locked fun free =>
      absurd free touring.allocated) ?_
    rintro _ s2 ⟨mid2, world2, _, _⟩
    have sees := mid2.sees List.mem_cons_self List.mem_cons_self
    rw [← world2] at touring dir
    have fits : [(dp, P)].length < 2 := Nat.one_lt_two
    refine Spec.bind (dirlookup_step roomy fits mid2 sees (fun other => absurd dir other) name) ?_
    rintro found s3 ⟨_, post⟩
    have scanned := touring.matching.lookup_inum P name
    have entries : s2.world.entries = s.world.entries := by
      obtain ⟨cache, known⟩ := touring.same
      rw [known]
    rw [entries] at scanned
    cases found with
    | none =>
      obtain ⟨rfl, lookup⟩ := post
      rw [lookup.eq] at scanned
      refine Spec.bind (iunlockput_step mid2 List.not_mem_nil) ?_
      grind [Spec.pure, Midway.kept]
    | some pair =>
      obtain ⟨I, k, _, mid3, lookup⟩ := post
      rw [lookup.eq] at scanned
      refine Spec.bind (iunlockput_step (mid3.perm (List.Perm.swap _ _ _)) List.not_mem_nil) ?_
      rintro _ s4 ⟨mid4, _⟩
      refine Spec.pure ⟨mid4.took base, ?_⟩
      exact (congrArg Option.some (mid4.names _ List.mem_cons_self)).trans scanned

end Walks

/-- `namei` returns the inode that the components lead to, if there is one. -/
structure NameiLaw (s : State) (p : Fin NPROC) (path : List UInt8) (found : Option (Fin NINODE))
    (s' : State) : Prop where
  inode : found.map (fun ip => (s'.icache ip).inum) = s.world.resolve (s.outside.start p path)
    (components path)
  zero : found = none ↔ ∃ k Y, k < (components path).length ∧
    s.world.resolve (s.outside.start p path) ((components path).take k) = some Y ∧
    (s.world.type Y ≠ .dir ∨ ∀ name, (components path)[k]? = some name →
    scan name (s.world.entries Y) = none)
  counted : Counted s s' found

/-- `nameiparent` returns the directory of the last component, if the others lead to one. -/
structure NameiparentLaw (s : State) (p : Fin NPROC) (path : List UInt8)
    (found : Option (Fin NINODE × List UInt8)) (s' : State) : Prop where
  zero : found = none ↔ components path = [] ∨ ∃ k < (components path).length,
    ¬∃ Y, s.world.resolve (s.outside.start p path) ((components path).take k) = some Y ∧
    s.world.type Y = .dir
  parent : ∀ dp name, found = some (dp, name) → (components path).getLast? = some name ∧
    s.world.resolve (s.outside.start p path) (components path).dropLast = some (s'.icache dp).inum ∧
    s.world.type (s'.icache dp).inum = .dir
  counted : Counted s s' (found.map Prod.fst)

theorem parent_eq_none_iff : w.parent X names = none ↔
    names = [] ∨ ∃ k < names.length, ¬∃ Y, w.resolve X (names.take k) = some Y ∧
      w.type Y = .dir := by
  rcases List.eq_nil_or_concat' names with rfl | ⟨front, name, rfl⟩
  · exact iff_of_true rfl (Or.inl rfl)
  · rw [World.parent, List.getLast?_concat, List.dropLast_concat, Option.bind_some]
    constructor
    · intro nowhere
      refine Or.inr ⟨front.length, by simp, ?_⟩
      grind
    · rintro (empty | ⟨k, inside, fails⟩)
      · simp at empty
      · cases there : w.resolve X front with
        | none => rfl
        | some P =>
          rw [Option.bind_some]
          split
          · rename_i dir
            exfalso
            apply fails
            by_cases last : k < front.length
            · rw [List.take_append_of_le_length (Nat.le_of_lt last)]
              exact resolve_take there last
            · have whole : k = front.length := by grind
              rw [whole, List.take_left]
              exact ⟨P, there, dir⟩
          · rfl

/-- The call returns; only `iget` may panic, when the inode cache has less than two free slots. -/
def Finishes {α : Type} (s : State) (outcome : Outcome (α × State)) : Prop :=
  (∃ r, outcome = .ok r) ∨ NINODE < slotsInUse s + 2 ∧ outcome = .panic "iget: no inodes"

/-- The stops of `Finishes`. -/
def fullStops (s : State) : Stops :=
  ⟨fun message => NINODE < slotsInUse s + 2 ∧ message = "iget: no inodes", False⟩

theorem roomy_fullStops (base : Base s) : s.outside.Roomy (fullStops s) 2 := by
  by_cases slots : slotsInUse s + 2 ≤ NINODE
  · rw [base.slotsInUse] at slots
    exact Or.inl slots
  · exact Or.inr ⟨by omega, rfl⟩

theorem Finishes.of_spec {α : Type} {program : Exec State α} {post : α → State → Prop}
    (spec : Spec (fullStops s) program s post) : Finishes s (program s) := by
  cases ran : program s with
  | ok r => exact Or.inl ⟨r, rfl⟩
  | panic message =>
    obtain ⟨full, rfl⟩ := spec.panicked ran
    exact Or.inr ⟨full, rfl⟩
  | blocked => exact absurd (spec.blocked ran) id

/-- Path resolution in any tree whose name cache is coherent: both functions return what the
components of the path lead to, count no reference but the one that they return, and `namei` finds
what `dirlookup` finds in the directory of `nameiparent`. -/
theorem path_resolution (base : Base s) (matching : Matching s.world) (tree : Tree s.world)
    (running : (s.procs p).cwd ≠ none) (path : List UInt8) :
    (Finishes s (namei p path s) ∧ ∀ found s', namei p path s = .ok (found, s') →
      NameiLaw s p path found s') ∧
    (Finishes s (nameiparent p path s) ∧
      ∀ found s', nameiparent p path s = .ok (found, s') → NameiparentLaw s p path found s') ∧
    (components path ≠ [] → Finishes s (dirlookupParent p path s) ∧
      ∀ found s' again s'', namei p path s = .ok (found, s') → dirlookupParent p path s = .ok
        (again, s'') →
        found.map (fun ip => (s'.icache ip).inum) = again.map
          (fun ip => (s''.icache ip).inum)) := by
  have roomy := roomy_fullStops base
  have whole := namei_resolves roomy base matching tree running path
  have parent := nameiparent_resolves roomy base matching tree running path
  refine ⟨⟨Finishes.of_spec whole, fun found s' ran => ?_⟩,
    ⟨Finishes.of_spec parent, fun found s' ran => ?_⟩, fun some => ?_⟩
  · obtain ⟨counted, inode⟩ := whole.ok ran
    refine ⟨inode, ?_, counted⟩
    rw [← resolve_eq_none_iff, ← inode, Option.map_eq_none_iff]
  · obtain ⟨counted, result⟩ := parent.ok ran
    refine ⟨?_, ?_, counted⟩
    · rw [← parent_eq_none_iff, ← result, Option.map_eq_none_iff]
    · rintro dp name rfl
      rw [World.parent] at result
      obtain ⟨last, isLast, result⟩ := Option.bind_eq_some_iff.mp result.symm
      obtain ⟨P, there, result⟩ := Option.bind_eq_some_iff.mp result
      split at result
      · rename_i dir
        cases result
        exact ⟨isLast, there, dir⟩
      · cases result
  · have again := dirlookupParent_resolves roomy base matching tree running some
    refine ⟨Finishes.of_spec again, fun found s' found' s'' first second => ?_⟩
    exact (whole.ok first).2.trans (again.ok second).2.symm

section Reached

variable {im : Mkfs.Image} {files : List Mkfs.Source} {devsw : Int → Option Device}
  {calls : List (Fin NPROC × Call)} {ok : State → Fin NPROC × Call → Prop}

theorem Coherent.matching (coherent : Coherent w) : Matching w :=
  Cache.All.mono coherent fun _ _ agrees => agrees.toMatches

/-- The calls that are careful and keep to linked directories lead to such states. -/
theorem resolvable (made : Mkfs.Made im files) (distinct : DistinctNames files)
    (fine : ∀ s e, Sound s.world → ok s e → Careful s e ∧ KeepsToLinked s e)
    (meets : SystemMeets ok im devsw calls) (reached : runSystem im devsw calls = some s) :
    Base s ∧ Matching s.world ∧ Tree s.world := by
  have holds : Base s ∧ ShortLinks s.world ∧ Sound s.world ∧ Coherent s.world := by
    refine @run_system im files devsw ok (fun s => ShortLinks s.world ∧ Sound s.world ∧
      Coherent s.world)
      made (fun s _ world => ?_) (fun s p call r s' base all met taken => ?_) calls s meets reached
    · rw [world]
      exact ⟨shortLinks_boot made, ⟨forest_boot made distinct, all_namecacheInit _⟩,
        all_namecacheInit _⟩
    · obtain ⟨short, sound, coherent⟩ := all
      obtain ⟨careful, keeps⟩ := fine s _ sound met
      have effect := callStep_effect base taken
      exact ⟨effect.stable stable_shortLinks base.numbered short,
        effect.sound base short sound careful, effect.coherent base short coherent keeps⟩
  obtain ⟨base, _, sound, coherent⟩ := holds
  exact ⟨base, coherent.matching, sound.forest.root.1.1, sound.named⟩

end Reached

/-- In a directory, the first process makes another one with a name of sixteen letters. -/
def makeLong : List (Fin NPROC × Call) :=
  makeAndEnter ++ [(0, .sysMkdir ((List.range 16).map fun i => UInt8.ofNat (97 + i)))]

/-- "../d//abcdefghijklmnz". -/
def longPath : List UInt8 :=
  [46, 46, 47, 100, 47, 47] ++ ((List.range 14).map fun i => UInt8.ofNat (97 + i)) ++ [122]

/-- It is found again from there, by the first fourteen letters. -/
theorem path_resolution_long : ∃ im s found s', Mkfs.mkfs [] = some im ∧
    runSystem im (fun _ => none) makeLong = some s ∧
    namei 0 longPath s = .ok (some found, s') ∧ (s'.icache found).inum = 3 := by
  obtain ⟨im, made, room, s, ran, meets, running, slots, there⟩ : Mkfs.Yields [] fun im =>
      ∃ s ∈ runSystem im (fun _ => none) makeLong,
        SystemMeets (fun s e => Careful s e ∧ KeepsToLinked s e) im (fun _ => none) makeLong ∧
        (s.procs 0).cwd ≠ none ∧ slotsInUse s + 2 ≤ NINODE ∧
        s.world.resolve (s.outside.start 0 longPath) (components longPath) = some 3 := by
        decide +kernel
  obtain ⟨base, matching, tree⟩ := resolvable (Mkfs.mkfs_made made (by decide) room) (by decide)
    (fun _ _ _ met => met) meets ran
  obtain ⟨⟨ends, law⟩, _⟩ := path_resolution base matching tree running longPath
  rcases ends with ⟨⟨found, s'⟩, returned⟩ | ⟨full, _⟩
  · have inode := (law found s' returned).inode
    rw [there] at inode
    obtain ⟨ip, rfl, inum⟩ := Option.map_eq_some_iff.mp inode
    exact ⟨im, s, ip, s', made, ran, returned, inum⟩
  · omega

/-- Calls that look up at most one name, in the root directory, and make none. -/
def Call.browses : Call → Bool
  | .fork _ => true
  | .sysOpen path omode => omode = O_RDONLY ∧ deref path = 47 ∧ (elements path).length ≤ 1
  | _ => false

theorem finds_single {D : Nat} (few : names.length ≤ 1)
    (member : D ∈ w.finds false X names) : D = X := by
  cases names with
  | nil => cases member
  | cons name rest =>
    obtain rfl : rest = [] := List.length_eq_zero_iff.mp (by simpa using few)
    rw [World.finds] at member
    split at member
    · cases member
    · rw [if_neg (fun parent => Bool.noConfusion parent.1)] at member
      split at member
      · rw [World.finds, List.mem_singleton] at member
        exact member
      · cases member

theorem Call.browses.fine {e : Fin NPROC × Call} (browses : e.2.browses = true)
    (sound : Sound s.world) :
    Careful s e ∧ KeepsToLinked s e := by
  obtain ⟨p, call⟩ := e
  cases call with
  | fork child =>
    constructor
    · intro t aim
      cases aim
    · intro D member
      cases member
  | sysOpen path omode =>
    obtain ⟨rfl, root, few⟩ := of_decide_eq_true browses
    constructor
    · intro t aim
      cases aim
    · intro D member
      have start : s.outside.start p path = ROOTINO := if_pos root
      have walked : D ∈ s.world.finds false (s.outside.start p path) (elements path) := by
        rcases List.mem_append.mp member with walked | none
        · exact walked
        · cases none
      rw [finds_single few walked, start]
      exact sound.forest.root.1.2
  | _ => cases browses

/-- With all slots of the inode cache in use, `namei` panics in a tree with a coherent name cache.
-/
theorem namei_without_slot : ∃ im s, Mkfs.mkfs (letters 50) = some im ∧
    runSystem im (fun _ => none) fiftyInodes = some s ∧ Base s ∧ Matching s.world ∧ Tree s.world ∧
    (s.procs 3).cwd ≠ none ∧ namei 3 [47, 146] s = .panic "iget: no inodes" := by
  obtain ⟨im, made, room, s, ran, cwd, stopped, -⟩ := fiftyInodes_stops
  have browses : ∀ e ∈ fiftyInodes, e.2.browses = true := by decide
  obtain ⟨base, matching, tree⟩ := resolvable (Mkfs.mkfs_made made (by decide) room) (by decide)
    (fun _ _ sound met => Call.browses.fine met sound)
    (fun first _ => Runs.Meets.of_forall (fun _ => browses) first) ran
  exact ⟨im, s, made, ran, base, matching, tree, cwd, Outcome.message_eq_some.mp stopped⟩

end Calls

end Xv6.Fs
