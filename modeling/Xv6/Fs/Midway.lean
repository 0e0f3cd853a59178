import Mathlib.Data.Fintype.Card
import Xv6.Fs.Frame
import Xv6.Fs.Update
import Xv6.Fs.World

/- The state in the middle of a call. Every reference to a slot of the inode cache is one
of the processes and open files around the call, or one that the call holds itself. -/
namespace Xv6.Fs

open Exec hiding panic
open Namecache

variable {locked' : List (Fin NINODE)} {n : Nat} {ip : Inode}

/-- The entries of an inode, if it is a directory. -/
def dirEntries (blocks : Nat → Block) (din : Dinode) : List Dirent :=
  if din.type = .dir then entriesOf blocks din else []

/-- The content of an inode that is not a directory. -/
def fileBytes (blocks : Nat → Block) (din : Dinode) : List UInt8 :=
  if din.type = .free ∨ din.type = .dir then [] else contentOf blocks din 0 din.size

/-- What is seen of an inode depends on its type and on the bytes up to its size. -/
theorem seen_congr {blocks blocks' : Nat → Block} {din din' : Dinode} (type : din'.type = din.type)
    (size : din'.size = din.size)
    (same : ∀ k, k < din.size → byteAt blocks' din' k = byteAt blocks din k) :
    dirEntries blocks' din' = dirEntries blocks din ∧ fileBytes blocks' din' =
      fileBytes blocks din := by
  have content : contentOf blocks' din' 0 din.size = contentOf blocks din 0 din.size :=
    contentOf_congr fun k _ below => same k (by omega)
  grind [dirEntries, fileBytes, entriesOf_congr]

def State.world (s : State) : World where
  inode := s.dinodes
  entries := fun j => dirEntries s.blocks (s.dinodes j)
  data := fun j => fileBytes s.blocks (s.dinodes j)
  cache := s.namecache

theorem world_congr {s s' : State} (dinodes : s'.dinodes = s.dinodes)
    (blocks : s'.blocks = s.blocks) (cache : s'.namecache = s.namecache) : s'.world = s.world := by
  simp only [State.world, dinodes, blocks, cache]

theorem Quiet.world {s s' : State} (quiet : Quiet s s') : s'.world = s.world :=
  world_congr quiet.dinodes quiet.blocks quiet.namecache

theorem Quiet.tables {s s' : State} (quiet : Quiet s s') : tables s' = tables s := by
  simp only [Fs.tables, quiet.procs, quiet.ftable, quiet.devsw, quiet.pipes]

/-- What stands around a call: the tables it is started with, and for each slot how many
references are not the call's own, the inode they are to and its type. -/
structure Outside where
  procs : Fin NPROC → Task
  ftable : Fin NFILE → File
  devsw : Int → Option Device
  pipes : Nat → Option Pipe
  refs : Fin NINODE → Nat
  inum : Fin NINODE → Nat
  kind : Fin NINODE → Itype

def Outside.Used (c : Outside) (X : Nat) : Prop := ∃ i, 0 < c.refs i ∧ c.inum i = X

/-- Each inode without links has a slot that will free it. -/
def Anchored (s : State) : Prop :=
  ∀ X, (s.dinodes X).type ≠ .free → (s.dinodes X).nlink = 0 →
    ∃ i, 0 < (s.icache i).ref ∧ (s.icache i).inum = X ∧ (s.icache i).valid = true

/-- The call of process `p` has a reference for each pair of `held`, a slot and its inode,
and holds the locks of the slots `locked`. -/
structure Loose (c : Outside) (p : Fin NPROC) (held : List (Fin NINODE × Nat))
    (locked : List (Fin NINODE)) (s : State) : Prop where
  sane : Sane clean s
  tables : tables s = (c.procs, c.ftable, c.devsw, c.pipes)
  counted : ∀ i, (s.icache i).ref = c.refs i + (held.map Prod.fst).count i
  names : ∀ h ∈ held, (s.icache h.1).inum = h.2
  steady : ∀ i, 0 < c.refs i → (s.icache i).inum = c.inum i
  locks : ∀ i, (s.icache i).lock = if i ∈ locked then some p else none
  kinds : ∀ i, 0 < c.refs i → (s.dinodes (c.inum i)).type = c.kind i
  alive : ∀ i, 0 < c.refs i → c.kind i ≠ .free
  whole : ∀ j, (s.dinodes j).type = .dir → DIRENTSIZE ∣ (s.dinodes j).size

/-- The same, but for the moment in which `create` has a new inode and not yet its lock. -/
structure Midway (c : Outside) (p : Fin NPROC) (held : List (Fin NINODE × Nat))
    (locked : List (Fin NINODE)) (s : State) : Prop extends Loose c p held locked s where
  anchored : Anchored s

/-- The inodes that stay in use when the call drops a reference. -/
def InUse (c : Outside) (held : List (Fin NINODE × Nat)) (X : Nat) : Prop :=
  c.Used X ∨ ∃ h ∈ held, h.2 = X

section Facts

variable {c : Outside} {p : Fin NPROC} {held : List (Fin NINODE × Nat)} {locked : List (Fin NINODE)}
  {s s' : State} {i : Fin NINODE} {X : Nat} {held' : List (Fin NINODE × Nat)}

theorem Midway.perm (mid : Midway c p held locked s)
    (same : held.Perm held') : Midway c p held' locked s := by
  refine ⟨⟨mid.sane, mid.tables, fun i => ?_, fun h member => ?_, mid.steady, mid.locks, mid.kinds,
    mid.alive, mid.whole⟩, mid.anchored⟩
  · rw [mid.counted i, (same.map Prod.fst).count_eq]
  · exact mid.names h (same.mem_iff.mpr member)

theorem Midway.relock (mid : Midway c p held locked s)
    (same : ∀ j, j ∈ locked' ↔ j ∈ locked) : Midway c p held locked' s := by
  refine ⟨⟨mid.sane, mid.tables, mid.counted, mid.names, mid.steady, fun j => ?_, mid.kinds,
    mid.alive, mid.whole⟩, mid.anchored⟩
  rw [mid.locks j]
  simp only [same j]

theorem Loose.ref (mid : Loose c p held locked s) {h : Fin NINODE × Nat} (member : h ∈ held) :
    0 < (s.icache h.1).ref := by
  rw [mid.counted]
  have some := List.count_pos_iff.mpr (List.mem_map_of_mem member : h.1 ∈ held.map Prod.fst)
  omega

theorem Loose.outside (mid : Loose c p held locked s) (used : 0 < c.refs i) :
    0 < (s.icache i).ref := by
  rw [mid.counted]
  omega

/-- What the holder of a lock sees. -/
structure Sees (s : State) (i : Fin NINODE) (X : Nat) : Prop where
  used : 0 < (s.icache i).ref
  valid : (s.icache i).valid = true
  inum : (s.icache i).inum = X
  din : (s.icache i).din = s.dinodes X
  dev : (s.icache i).dev = ROOTDEV
  allocated : (s.dinodes X).type ≠ .free

theorem Loose.held_lock (mid : Loose c p held locked s) (own : i ∈ locked) :
    (s.icache i).lock ≠ none := by
  rw [mid.locks, if_pos own]
  exact Option.some_ne_none p

theorem Midway.sees (mid : Midway c p held locked s) (member : (i, X) ∈ held) (own : i ∈ locked) :
    Sees s i X := by
  have slot := mid.sane.slots i
  have inum : (s.icache i).inum = X := mid.names _ member
  obtain ⟨used, valid⟩ := slot.locked (mid.held_lock own)
  have din := slot.coherent used valid rfl
  have allocated := slot.typed used valid
  rw [inum] at din allocated
  exact ⟨used, valid, inum, din, slot.device used, allocated⟩

/-- The facts about slots that the call does not change. -/
theorem Loose.quiet (mid : Loose c p held locked s) (sane : Sane clean s') (quiet : Quiet s s')
    (counted : ∀ i, (s'.icache i).ref = c.refs i + (held'.map Prod.fst).count i)
    (names : ∀ h ∈ held', (s'.icache h.1).inum = h.2)
    (same : ∀ i, 0 < (s.icache i).ref → (s'.icache i).inum = (s.icache i).inum)
    (locks : ∀ i, (s'.icache i).lock = if i ∈ locked' then some p else none) :
    Loose c p held' locked' s' := by
  refine ⟨sane, quiet.tables.trans mid.tables, counted, names, fun i used => ?_, locks, ?_,
    mid.alive, ?_⟩
  · rw [same i (mid.outside used)]
    exact mid.steady i used
  · rw [quiet.dinodes]
    exact mid.kinds
  · rw [quiet.dinodes]
    exact mid.whole

theorem Anchored.quiet (anchored : Anchored s) (quiet : Quiet s s')
    (keeps : ∀ i, 0 < (s.icache i).ref → (s.icache i).valid = true →
      (s.dinodes (s.icache i).inum).nlink = 0 →
      0 < (s'.icache i).ref ∧ (s'.icache i).inum = (s.icache i).inum ∧ (s'.icache i).valid = true) :
    Anchored s' := by
  intro X allocated nlink
  rw [quiet.dinodes] at allocated nlink
  obtain ⟨i, used, rfl, valid⟩ := anchored X allocated nlink
  exact ⟨i, keeps i used valid nlink⟩

/-- An inode without links that no slot outside of the call refers to is one of the call. -/
theorem Midway.noOrphans (mid : Midway c p held locked s) : NoOrphans (InUse c held) s.world := by
  intro X allocated nlink
  obtain ⟨i, used, inum, _⟩ := mid.anchored X allocated nlink
  rw [mid.counted i] at used
  by_cases outside : 0 < c.refs i
  · exact Or.inl ⟨i, outside, (mid.steady i outside).symm.trans inum⟩
  · have some : 0 < (held.map Prod.fst).count i := by omega
    obtain ⟨h, member, rfl⟩ := List.mem_map.mp (List.count_pos_iff.mp some)
    exact Or.inr ⟨h, member, (mid.names h member).symm.trans inum⟩

end Facts

section Slots

variable {allowed : Stops} {c : Outside} {p : Fin NPROC} {held : List (Fin NINODE × Nat)}
  {locked : List (Fin NINODE)} {s : State} {i : Fin NINODE} {X : Nat} {s' : State}

theorem Got.same (got : Got s s' i X) {j : Fin NINODE} (used : 0 < (s.icache j).ref) :
    0 < (s'.icache j).ref ∧ (s'.icache j).inum = (s.icache j).inum ∧
      (s'.icache j).valid = (s.icache j).valid := by
  by_cases here : j = i
  · subst here
    rw [got.again used]
    exact ⟨Nat.succ_pos _, rfl, rfl⟩
  · rw [got.others j here]
    exact ⟨used, rfl, rfl⟩

/-- One more reference to slot `i`. -/
theorem Loose.got (mid : Loose c p held locked s) (sane : Sane clean s')
    (got : Got s s' i X) : Loose c p ((i, X) :: held) locked s' := by
  refine mid.quiet sane got.quiet (fun j => ?_) (fun h member => ?_) (fun j used =>
    (got.same used).2.1) (fun j => ?_)
  · rw [List.map_cons, List.count_cons]
    by_cases here : j = i
    · subst here
      rw [got.ref, mid.counted, if_pos (beq_self_eq_true j), Nat.add_assoc]
    · have apart : (i == j) = false := beq_false_of_ne (Ne.symm here)
      rw [got.others j here, mid.counted, apart]
      rfl
  · rcases List.mem_cons.mp member with rfl | older
    · exact got.inum
    · rw [(got.same (mid.ref older)).2.1]
      exact mid.names h older
  · rw [← mid.locks j]
    by_cases here : j = i
    · subst here
      exact got.lock
    · rw [got.others j here]

theorem Midway.got (mid : Midway c p held locked s) (sane : Sane clean s')
    (got : Got s s' i X) : Midway c p ((i, X) :: held) locked s' := by
  refine ⟨mid.toLoose.got sane got, mid.anchored.quiet got.quiet fun j used valid _ => ?_⟩
  obtain ⟨used', inum, same⟩ := got.same used
  exact ⟨used', inum, same.trans valid⟩

/-- `n` slots are left beside those that are referred to from outside of the call, or `iget` may
find none. -/
def Outside.Roomy (allowed : Stops) (c : Outside) (n : Nat) : Prop :=
  (Finset.univ.filter fun i => 0 < c.refs i).card + n ≤ NINODE ∨ allowed "iget: no inodes"

/-- The slots in use are those that are referred to from outside, and those of the call. -/
theorem Loose.roomy (mid : Loose c p held locked s) (roomy : c.Roomy allowed n)
    (few : held.length < n) (full : ∀ j, 0 < (s.icache j).ref) : allowed "iget: no inodes" := by
  rcases roomy with enough | fine
  · have cover : (Finset.univ : Finset (Fin NINODE)) ⊆
        (Finset.univ.filter fun i => 0 < c.refs i) ∪ (held.map Prod.fst).toFinset := by
      intro j _
      have used := full j
      rw [mid.counted j] at used
      rw [Finset.mem_union, Finset.mem_filter, List.mem_toFinset, ← List.count_pos_iff]
      by_cases outside : 0 < c.refs j
      · exact Or.inl ⟨Finset.mem_univ j, outside⟩
      · exact Or.inr (by omega)
    have total := (Finset.card_le_card cover).trans (Finset.card_union_le _ _)
    have own := (held.map Prod.fst).toFinset_card_le
    grind [Finset.card_univ, Fintype.card_fin, List.length_map]
  · exact fine

theorem iget_step (roomy : c.Roomy allowed n) (few : held.length < n)
    (mid : Midway c p held locked s) (X : Nat) :
    Spec allowed (iget ROOTDEV X) s fun i s' => Midway c p ((i, X) :: held) locked s' ∧
      s'.world = s.world := by
  refine Spec.mono (iget_spec (mid.roomy roomy few) mid.sane X) ?_
  rintro i s' ⟨sane, got⟩
  exact ⟨mid.got sane got, got.quiet.world⟩

theorem idup_step (mid : Midway c p held locked s) (used : 0 < c.refs i) :
    Spec allowed (idup i) s fun j s' => j = i ∧ Midway c p ((i, c.inum i) :: held) locked s' ∧
      s'.world = s.world := by
  have before := mid.outside used
  refine Spec.mono (idup_spec mid.sane before) ?_
  rintro j s' ⟨rfl, sane, rfl⟩
  have got : Got s (s.setSlot j { s.icache j with ref := (s.icache j).ref + 1 }) j (c.inum j) := by
    refine ⟨Quiet.setSlot _ _ _, fun k apart => setSlot_of_ne s _ apart, ?_, ?_, ?_, ?_, ?_⟩
    · rw [setSlot_self]
      exact mid.steady j used
    · rw [setSlot_self]
    · rw [setSlot_self]
    · exact fun _ => setSlot_self _ _ _
    · omega
  exact ⟨rfl, mid.got sane got, got.quiet.world⟩

/-- Slot `i` changes, but not its inode and the references to it. -/
theorem Loose.setSlot (mid : Loose c p held locked s) (sane : Sane clean (s.setSlot i ip))
    (ref : ip.ref = (s.icache i).ref) (inum : ip.inum = (s.icache i).inum)
    (here : ip.lock = if i ∈ locked' then some p else none)
    (there : ∀ j, j ≠ i → (j ∈ locked' ↔ j ∈ locked)) :
    Loose c p held locked' (s.setSlot i ip) := by
  have slot : ∀ j, ((s.setSlot i ip).icache j).ref = (s.icache j).ref ∧
      ((s.setSlot i ip).icache j).inum = (s.icache j).inum := by
    grind [setSlot_self, setSlot_of_ne]
  refine mid.quiet sane (Quiet.setSlot _ _ _) (fun j => ?_) (fun h other => ?_)
    (fun j _ => (slot j).2) (fun j => ?_)
  · rw [(slot j).1]
    exact mid.counted j
  · rw [(slot h.1).2]
    exact mid.names h other
  · by_cases same : j = i
    · grind [setSlot_self]
    · rw [setSlot_of_ne s ip same, mid.locks j]
      simp only [there j same]

theorem Anchored.setSlot (anchored : Anchored s) (ref : ip.ref = (s.icache i).ref)
    (inum : ip.inum = (s.icache i).inum) (valid : (s.icache i).valid = true → ip.valid = true) :
    Anchored (s.setSlot i ip) := by
  refine anchored.quiet (Quiet.setSlot _ _ _) fun j used good _ => ?_
  grind [setSlot_self, setSlot_of_ne]

/-- `p` takes the lock of a slot that it refers to. -/
theorem Loose.lockSlot (mid : Loose c p held locked s) (sane : Sane clean (s.lockSlot p i)) :
    Loose c p held (i :: locked) (s.lockSlot p i) := by
  refine mid.setSlot sane rfl rfl ?_ (fun j apart => ?_)
  · rw [if_pos List.mem_cons_self]
  · simp only [List.mem_cons, apart, false_or]

/-- Nobody waits for a lock that is not held. -/
theorem none_locked {q : Prop} (taken : i ∈ ([] : List (Fin NINODE))) :
    q := (List.not_mem_nil taken).elim

theorem ilock_step (mid : Midway c p held locked s) (member : (i, X) ∈ held)
    (waits : i ∈ locked → allowed.waits)
    (typed : s.world.type X = .free → allowed "ilock: no type") :
    Spec allowed (ilock p i) s fun _ s' => Midway c p held (i :: locked) s' ∧ s'.world = s.world ∧
      i ∉ locked ∧ s.world.type X ≠ .free := by
  have inum : (s.icache i).inum = X := mid.names _ member
  have free : i ∉ locked → (s.icache i).lock = none := fun other => by rw [mid.locks, if_neg other]
  have used : 0 < (s.icache i).ref := mid.ref member
  refine Spec.mono (ilock_spec mid.sane (fun none => by omega) (fun taken => ?_)
    (by rw [inum]; exact typed)) ?_
  · grind
  rintro _ s' ⟨sane, rfl, used, unlocked, allocated⟩
  rw [inum] at allocated
  have quiet : Quiet s (s.lockSlot p i) := Quiet.setSlot _ _ _
  refine ⟨⟨mid.toLoose.lockSlot sane, mid.anchored.setSlot rfl rfl fun _ => rfl⟩, quiet.world,
    fun taken => ?_, allocated⟩
  exact mid.held_lock taken unlocked

theorem iunlock_step (mid : Midway c p held (i :: locked) s) (apart : i ∉ locked) :
    Spec allowed (iunlock p i) s fun _ s' => Midway c p held locked s' ∧ s'.world = s.world := by
  have own : (s.icache i).lock = some p := by rw [mid.locks, if_pos List.mem_cons_self]
  refine Spec.mono (iunlock_spec mid.sane rfl fun foreign => (foreign own).elim) ?_
  rintro _ s' ⟨sane, rfl⟩
  refine ⟨⟨mid.toLoose.setSlot sane rfl rfl ?_ (fun j other => ?_),
    mid.anchored.setSlot rfl rfl id⟩, (Quiet.setSlot _ _ _).world⟩
  · rw [if_neg apart]
  · simp only [List.mem_cons, other, false_or]

/-- The inode of slot `i` has no user but the call. -/
theorem Midway.last (mid : Midway c p ((i, X) :: held) locked s) (last : (s.icache i).ref = 1) :
    ¬ InUse c held X := by
  have counted := mid.counted i
  rw [last, List.map_cons, List.count_cons_self] at counted
  have used : 0 < (s.icache i).ref := by omega
  have inum : (s.icache i).inum = X := mid.names _ List.mem_cons_self
  rintro (⟨j, refs, same⟩ | ⟨h, member, same⟩)
  · rw [← mid.steady j refs, ← inum] at same
    have equal := mid.sane.unique (mid.outside refs) used same
    subst equal
    omega
  · have older : h ∈ (i, X) :: held := List.mem_cons_of_mem _ member
    rw [← mid.names h older, ← inum] at same
    have equal := mid.sane.unique (mid.ref older) used same
    have some := List.count_pos_iff.mpr (List.mem_map_of_mem member : h.1 ∈ held.map Prod.fst)
    rw [equal] at some
    omega

/-- One inode is another one now, without content. -/
theorem world_reset {din : Dinode} (dinodes : s'.dinodes = Function.update s.dinodes X din)
    (blocks : s'.blocks = s.blocks) (cache : s'.namecache = s.namecache)
    (empty : din.type = .free ∨ din.size = 0) : s'.world = s.world.reset X din := by
  have none : dirEntries s.blocks din = [] ∧ fileBytes s.blocks din = [] := by
    rcases empty with free | zero
    · rw [dirEntries, fileBytes, free]
      exact ⟨rfl, rfl⟩
    · have entries : entriesOf s.blocks din = [] := by
        refine List.eq_nil_of_length_eq_zero ((entriesOf_length _ _).trans ?_)
        rw [zero]
        rfl
      rw [dirEntries, fileBytes, entries, zero, contentOf, List.range_zero, List.map_nil,
        ite_self, ite_self]
      exact ⟨rfl, rfl⟩
  refine World.eq_of (fun j => ?_) (fun j => ?_) (fun j => ?_) cache
  · change s'.dinodes j = Function.update s.dinodes X din j
    rw [dinodes]
  · simp only [State.world, World.reset, dinodes, blocks, Function.update_apply]
    grind
  · simp only [State.world, World.reset, dinodes, blocks, Function.update_apply]
    grind

theorem iput_step (mid : Midway c p ((i, X) :: held) locked s)
    (waits : i ∈ locked → allowed.waits) :
    Spec allowed (iput p i) s fun _ s' => Midway c p held locked s' ∧
      Drop (InUse c held) s.world X s'.world := by
  have inum : (s.icache i).inum = X := mid.names _ List.mem_cons_self
  have counts : ∀ j, j ≠ i → (((i, X) :: held).map Prod.fst).count j =
    (held.map Prod.fst).count j := by
    grind
  have here := mid.counted i
  rw [List.map_cons, List.count_cons_self] at here
  have used : 0 < (s.icache i).ref := by omega
  refine Spec.mono (iput_spec mid.sane used fun taken => ?_) ?_
  · by_contra never
    exact taken (by rw [mid.locks, if_neg fun own => never (waits own)])
  rintro _ s' ⟨sane, unlocked, dropped | gone⟩
  · have same : ∀ j, (s'.icache j).inum = (s.icache j).inum := by
      intro j
      by_cases self : j = i
      · subst self
        rw [dropped.slot]
      · rw [dropped.others j self]
    refine ⟨⟨mid.toLoose.quiet sane dropped.quiet (fun j => ?_) (fun h member => ?_)
      (fun j _ => same j)
      (fun j => ?_), mid.anchored.quiet dropped.quiet fun j some valid nlink => ?_⟩,
      Or.inl dropped.quiet.world⟩
    · by_cases self : j = i
      · subst self
        rw [dropped.slot]
        change (s.icache j).ref - 1 = _
        omega
      · rw [dropped.others j self, mid.counted, counts j self]
    · rw [same]
      exact mid.names h (List.mem_cons_of_mem _ member)
    · rw [← mid.locks j]
      by_cases self : j = i
      · subst self
        rw [dropped.slot]
      · rw [dropped.others j self]
    · by_cases self : j = i
      · subst self
        have more : (s.icache j).ref ≠ 1 := by
          intro one
          rw [← (mid.sane.slots j).coherent some valid rfl] at nlink
          exact dropped.kept ⟨valid, nlink, one⟩
        rw [dropped.slot]
        refine ⟨?_, rfl, valid⟩
        change 0 < (s.icache j).ref - 1
        omega
      · rw [dropped.others j self]
        exact ⟨some, rfl, valid⟩
  · have last := gone.last
    have free := mid.last last
    have apart : ∀ j, 0 < c.refs j → c.inum j ≠ X := fun j refs same =>
      free (Or.inl ⟨j, refs, same⟩)
    have dinodes : ∀ j, j ≠ X → s'.dinodes j = s.dinodes j := by
      intro j other
      rw [gone.dinodes, inum, Function.update_of_ne other]
    have freed : (s'.dinodes X).type = .free := by
      rw [gone.dinodes, inum, Function.update_self]
      exact gone.type
    have slots : ∀ j, (s'.icache j).inum = (s.icache j).inum ∧ (s'.icache j).lock =
      (s.icache j).lock := by
      intro j
      by_cases self : j = i
      · grind [Gone.slot]
      · rw [gone.others j self]
        exact ⟨rfl, rfl⟩
    have type := (mid.sane.slots i).typed used gone.valid
    have nlink : (s.dinodes X).nlink = 0 := by
      rw [← inum, ← (mid.sane.slots i).coherent used gone.valid rfl]
      exact gone.nlink
    have world := world_reset gone.dinodes gone.blocks gone.namecache (Or.inl gone.type)
    rw [inum, gone.din, (mid.sane.slots i).coherent used gone.valid rfl, inum] at world
    rw [inum] at type
    refine ⟨⟨⟨sane, ?_, fun j => ?_, fun h member => ?_, fun j refs => ?_, fun j => ?_,
      fun j refs => ?_, mid.alive, fun j dir => ?_⟩, fun Y allocated zero => ?_⟩,
      Or.inr ⟨type, nlink, free, _, world⟩⟩
    · rw [← mid.tables]
      simp only [tables, gone.procs, gone.ftable, gone.devsw, gone.pipes]
    · by_cases self : j = i
      · grind [Gone.slot]
      · rw [gone.others j self, mid.counted, counts j self]
    · rw [(slots _).1]
      exact mid.names h (List.mem_cons_of_mem _ member)
    · rw [(slots _).1]
      exact mid.steady j refs
    · rw [(slots _).2]
      exact mid.locks j
    · rw [dinodes _ (apart j refs)]
      exact mid.kinds j refs
    · have other : j ≠ X := by grind
      rw [dinodes j other] at dir ⊢
      exact mid.whole j dir
    · have other : Y ≠ X := fun same => allocated (same ▸ freed)
      rw [dinodes Y other] at allocated zero
      obtain ⟨j, refs, rfl, valid⟩ := mid.anchored Y allocated zero
      have distinct : j ≠ i := by grind
      grind [Gone.others]

theorem iunlockput_step (mid : Midway c p ((i, X) :: held) (i :: locked) s) (apart : i ∉ locked) :
    Spec allowed (iunlockput p i) s fun _ s' => Midway c p held locked s' ∧
      Drop (InUse c held) s.world X s'.world := by
  refine Spec.bind (iunlock_step mid apart) ?_
  grind [iput_step]

end Slots

section Disk

variable {allowed : Stops} {c : Outside} {p : Fin NPROC} {held : List (Fin NINODE × Nat)}
  {locked : List (Fin NINODE)} {s s' : State} {i : Fin NINODE} {X : Nat} {off : Nat}
  {src : List UInt8} {dirty : Fin NINODE → Bool}

/-- A write of a locked inode that does not change its type. -/
theorem Midway.written (mid : Midway c p held locked s) (sees : Sees s i X) {din : Dinode}
    (sane : Sane clean s') (written : Written s s' i din) (type : din.type = (s.dinodes X).type)
    (whole : din.type = .dir → DIRENTSIZE ∣ din.size) : Midway c p held locked s' := by
  have slots : ∀ j, (s'.icache j).inum = (s.icache j).inum ∧ (s'.icache j).ref = (s.icache j).ref ∧
      (s'.icache j).lock = (s.icache j).lock ∧ (s'.icache j).valid = (s.icache j).valid := by
    intro j
    by_cases self : j = i
    · subst self
      rw [written.slot]
      exact ⟨rfl, rfl, rfl, rfl⟩
    · rw [written.others j self]
      exact ⟨rfl, rfl, rfl, rfl⟩
  have types : ∀ j, (s'.dinodes j).type = (s.dinodes j).type := by
    intro j
    rw [written.dinodes, sees.inum, Function.update_apply]
    grind
  refine ⟨⟨sane, ?_, fun j => ?_, fun h member => ?_, fun j used => ?_, fun j => ?_, fun j used =>
    ?_, mid.alive, fun j dir => ?_⟩, fun Y allocated zero => ?_⟩
  · rw [← mid.tables]
    simp only [Fs.tables, written.procs, written.ftable, written.devsw, written.pipes]
  · rw [(slots j).2.1]
    exact mid.counted j
  · rw [(slots _).1]
    exact mid.names h member
  · rw [(slots _).1]
    exact mid.steady j used
  · rw [(slots _).2.2.1]
    exact mid.locks j
  · rw [types]
    exact mid.kinds j used
  · rw [written.dinodes, sees.inum, Function.update_apply] at dir ⊢
    split at dir
    · grind
    · rename_i other
      rw [if_neg other]
      exact mid.whole j dir
  · by_cases here : Y = X
    · refine ⟨i, ?_, ?_, ?_⟩
      · rw [(slots i).2.1]
        exact sees.used
      · rw [(slots i).1, here]
        exact sees.inum
      · rw [(slots i).2.2.2]
        exact sees.valid
    · rw [types] at allocated
      rw [written.dinodes, sees.inum, Function.update_of_ne here] at zero
      obtain ⟨j, refs, inum, valid⟩ := mid.anchored Y allocated zero
      obtain ⟨inum', refs', _, valid'⟩ := slots j
      exact ⟨j, refs'.symm ▸ refs, inum'.trans inum, valid'.trans valid⟩

theorem change_step (mid : Midway c p held locked s) (member : (i, X) ∈ held) (own : i ∈ locked)
    (ch : Change) :
    Spec allowed (change i ch) s fun _ s' => Midway c p held locked s' ∧
      s'.world = s.world.change X ch := by
  have sees := mid.sees member own
  have alike := change_alike ch (s.dinodes X)
  unfold change
  rw [setDin_eq, iupdate_eq]
  refine Spec.bind_modify (Spec.modify ?_)
  rw [putDin_commit, sees.din]
  have sane : Sane (Function.update clean i false) (s.commit i (ch.apply (s.dinodes X))) := by
    refine mid.sane.commit sees.used sees.valid ?_
    rw [sees.inum]
    exact alike
  have still : Function.update clean i false = clean := Function.update_eq_self i clean
  rw [still] at sane
  have written := commit_written s i (ch.apply (s.dinodes X))
  have view := @seen_congr s.blocks s.blocks _ _ alike.type alike.size fun k _ => by
    unfold byteAt
    rw [alike.blockAddr]
  refine ⟨mid.written sees sane written alike.type fun dir => ?_, ?_⟩
  · rw [alike.size]
    rw [alike.type] at dir
    exact mid.whole X dir
  · have dinodes := written.dinodes
    rw [sees.inum] at dinodes
    refine World.eq_of (fun j => ?_) (fun j => ?_) (fun j => ?_) rfl
    · exact congrFun dinodes j
    · change dirEntries s.blocks ((s.commit i _).dinodes j) = dirEntries s.blocks (s.dinodes j)
      rw [dinodes, Function.update_apply]
      grind
    · change fileBytes s.blocks ((s.commit i _).dinodes j) = fileBytes s.blocks (s.dinodes j)
      rw [dinodes, Function.update_apply]
      grind

/-- `ialloc` and the `ilock` behind it: an inode that was free. -/
theorem ialloc_step {α : Type} (lenient : Lenient allowed) (roomy : c.Roomy allowed n)
    (few : held.length < n) (mid : Midway c p held locked s) {type : Itype} (typed : type ≠ .free)
    {next : Fin NINODE → Exec State α} {post : α → State → Prop}
    (later : ∀ i X s', s.world.vacant = some X → Midway c p ((i, X) :: held) (i :: locked) s' →
      i ∉ locked → s'.world = s.world.reset X (newDinode type (s.procs p).uid (s.procs p).gid) →
      s'.logged = iblock X :: s.logged → Spec allowed (next i) s' post) :
    Spec allowed (do
      let ip ← ialloc p type
      ilock p ip
      next ip) s post := by
  refine Spec.bind (ialloc_spec lenient (mid.roomy roomy few) mid.sane type) ?_
  rintro i s1 ⟨X, found, positive, below, free, sane, got⟩
  have dinodes : ∀ j, j ≠ X →
      (s.allocInode X (newDinode type (s.procs p).uid (s.procs p).gid)).dinodes j = s.dinodes j :=
    fun j apart => Function.update_of_ne apart _ _
  have new : (s.allocInode X (newDinode type (s.procs p).uid (s.procs p).gid)).dinodes X =
      newDinode type (s.procs p).uid (s.procs p).gid := Function.update_self _ _ _
  have fresh : Loose c p held locked (s.allocInode X
    (newDinode type (s.procs p).uid (s.procs p).gid)) := by
    refine ⟨mid.sane.allocInode free positive below rfl rfl, mid.tables, mid.counted, mid.names,
      mid.steady, mid.locks, fun j used => ?_, mid.alive, fun j dir => ?_⟩
    · have apart : c.inum j ≠ X := by
        intro same
        have kind := mid.kinds j used
        rw [same, free] at kind
        exact mid.alive j used kind.symm
      rw [dinodes _ apart]
      exact mid.kinds j used
    · by_cases here : j = X
      · rw [here, new]
        exact Nat.dvd_zero _
      · rw [dinodes j here] at dir ⊢
        exact mid.whole j dir
  -- A slot that is locked holds an inode with a type, so it is not the new one's.
  have unlocked : i ∉ locked := by
    intro own
    obtain ⟨used, valid⟩ := (mid.sane.slots i).locked (mid.held_lock own)
    have allocated := (mid.sane.slots i).typed used valid
    have inum := got.inum
    rw [got.again used] at inum
    exact allocated (by rw [show (s.icache i).inum = X from inum]; exact free)
  have lock : (s1.icache i).lock = none := by
    rw [got.lock]
    change (s.icache i).lock = none
    rw [mid.locks, if_neg unlocked]
  have referred : 0 < (s1.icache i).ref := by
    rw [got.ref]
    exact Nat.succ_pos _
  refine Spec.bind (ilock_spec sane (fun none => by omega) (fun taken => (taken lock).elim)
    fun none => ?_) ?_
  · rw [got.inum, got.quiet.dinodes, new] at none
    exact (typed none).elim
  rintro _ _ ⟨sane2, rfl, used, _, _⟩
  refine later i X _ found ⟨(fresh.got sane got).lockSlot sane2, fun Y allocated zero => ?_⟩
    unlocked ?_ got.quiet.logged
  · change (s1.dinodes Y).type ≠ .free at allocated
    change (s1.dinodes Y).nlink = 0 at zero
    by_cases here : Y = X
    · refine ⟨i, ?_, ?_, ?_⟩
      · rw [State.lockSlot, setSlot_self]
        exact used
      · rw [State.lockSlot, setSlot_self, here]
        exact got.inum
      · rw [State.lockSlot, setSlot_self]
    · rw [got.quiet.dinodes, dinodes Y here] at allocated zero
      obtain ⟨j, refs, inum, valid⟩ := mid.anchored Y allocated zero
      have old : 0 < ((s.allocInode X (newDinode type (s.procs p).uid (s.procs p).gid)).icache
        j).ref := refs
      obtain ⟨refs', inum', valid'⟩ := got.same old
      have apart : j ≠ i := by
        intro same
        rw [same, got.inum] at inum'
        rw [same] at inum
        exact here (inum.symm.trans inum'.symm)
      refine ⟨j, ?_⟩
      rw [State.lockSlot, setSlot_of_ne _ _ apart]
      exact ⟨refs', inum'.trans inum, valid'.trans valid⟩
  · have quiet : Quiet s1 (s1.lockSlot p i) := Quiet.setSlot _ _ _
    rw [quiet.world, got.quiet.world]
    exact world_reset rfl rfl rfl (Or.inr rfl)

/-- A write leaves what is seen of the other inodes. -/
theorem Stored.others (sane : Sane dirty s) (sees : Sees s i X)
    (stored : Stored s s' i off src) {j : Nat} (apart : j ≠ X) :
    s'.dinodes j = s.dinodes j ∧ dirEntries s'.blocks (s'.dinodes j) = dirEntries s.blocks
      (s.dinodes j) ∧
      fileBytes s'.blocks (s'.dinodes j) = fileBytes s.blocks (s.dinodes j) := by
  rw [stored.written.dinodes, sees.inum, Function.update_of_ne apart]
  refine ⟨rfl, ?_⟩
  by_cases free : (s.dinodes j).type = .free
  · grind [dirEntries, fileBytes]
  · have intact := stored.foreign j (by rw [sees.inum]; exact apart) free
    exact seen_congr rfl rfl fun k below => (sane.sized j free).byteAt intact
      (div_lt_blocksOf below)

/-- The inode after a write. -/
theorem Stored.dinode (sees : Sees s i X) (stored : Stored s s' i off src) :
    s'.dinodes X = (s'.icache i).din ∧ s'.dinodes X = { s.dinodes X with
      size := (s'.dinodes X).size
      addrs := (s'.dinodes X).addrs } := by
  have din : s'.dinodes X = (s'.icache i).din := by
    rw [stored.written.dinodes, sees.inum, Function.update_self]
  refine ⟨din, ?_⟩
  have fields := stored.din
  rw [← din, sees.din] at fields
  rw [fields]

/-- A write of a file shows in no directory. -/
theorem Stored.world_file (sane : Sane clean s) (sees : Sees s i X)
    (stored : Stored s s' i off src) (file : (s.dinodes X).type ≠ .dir) :
    ∃ bytes size addrs, s'.world = (s.world.store X bytes).resize X size addrs := by
  obtain ⟨_, fields⟩ := stored.dinode sees
  refine ⟨fileBytes s'.blocks (s'.dinodes X), (s'.dinodes X).size, (s'.dinodes X).addrs,
    World.eq_of (fun j => ?_) (fun j => ?_) (fun j => ?_) stored.written.namecache⟩
  · change s'.dinodes j = Function.update s.dinodes X _ j
    rw [Function.update_apply]
    split
    · rename_i here
      rw [here]
      exact fields
    · grind [others]
  · change dirEntries _ _ = dirEntries _ _
    by_cases here : j = X
    · have type : (s'.dinodes X).type = (s.dinodes X).type := by rw [fields]
      rw [here, dirEntries, dirEntries, type, if_neg file, if_neg file]
    · exact (stored.others sane sees here).2.1
  · change fileBytes _ _ = Function.update (fun j => fileBytes s.blocks (s.dinodes j)) X _ j
    grind [Function.update_apply, others]

/-- A write at the end of a file appends to its content. -/
theorem Stored.appended (sees : Sees s i X) (stored : Stored s s' i off src)
    (file : (s.dinodes X).type = .file) (ends : off = (s.dinodes X).size) :
    (s'.dinodes X).size = (s.dinodes X).size + src.length ∧
      s'.world.data X = s.world.data X ++ src := by
  obtain ⟨din, fields⟩ := stored.dinode sees
  have type : (s'.dinodes X).type = .file := by
    rw [fields]
    exact file
  have size : (s'.dinodes X).size = (s.dinodes X).size + src.length := by
    rw [din, stored.din, sees.din, ends]
    exact Nat.max_eq_right (Nat.le_add_right _ _)
  have regular : ¬ (Itype.file = .free ∨ Itype.file = .dir) := by decide
  have inside := stored.inside
  have outside := stored.outside
  rw [← din, ends] at inside
  rw [← din, ends, sees.din] at outside
  refine ⟨size, ?_⟩
  change fileBytes s'.blocks (s'.dinodes X) = fileBytes s.blocks (s.dinodes X) ++ src
  rw [fileBytes, fileBytes, type, file, if_neg regular, if_neg regular, size,
    contentOf_split _ _ (Nat.le_add_right (s.dinodes X).size src.length), Nat.zero_add,
    Nat.add_sub_cancel_left, contentOf_eq inside]
  rw [contentOf_congr fun k _ below => outside k (Or.inl (by omega)) (by omega)]

/-- A write of one entry of a directory. -/
theorem Stored.world_dir {k : Nat} (sane : Sane dirty s) (sees : Sees s i X)
    (stored : Stored s s' i (DIRENTSIZE * k) src) (dir : (s.dinodes X).type = .dir)
    (start : DIRENTSIZE * k ≤ (s.dinodes X).size) (length : src.length = DIRENTSIZE) :
    ∃ size addrs, s'.world = (s.world.put X k (Dirent.ofBytes src)).resize X size addrs := by
  obtain ⟨din, fields⟩ := stored.dinode sees
  have type : (s'.dinodes X).type = .dir := by
    rw [fields]
    exact dir
  have entries : entriesOf s'.blocks (s'.dinodes X) =
      putEntry (entriesOf s.blocks (s.dinodes X)) k (Dirent.ofBytes src) := by
    have size : (s'.dinodes X).size = max (s.dinodes X).size (DIRENTSIZE * k + DIRENTSIZE) := by
      rw [din, stored.din, sees.din, length]
    rw [din] at size ⊢
    refine entriesOf_put start size ?_ fun j outside below => ?_
    · have content := contentOf_eq stored.inside
      rwa [length] at content
    · grind [Sees.din, outside]
  refine ⟨(s'.dinodes X).size, (s'.dinodes X).addrs,
    World.eq_of (fun j => ?_) (fun j => ?_) (fun j => ?_) stored.written.namecache⟩
  · change s'.dinodes j = Function.update s.dinodes X _ j
    rw [Function.update_apply]
    split
    · rename_i here
      rw [here]
      exact fields
    · grind [others]
  · change dirEntries _ _ = Function.update (fun j => dirEntries s.blocks (s.dinodes j)) X _ j
    rw [Function.update_apply]
    split
    · rename_i here
      rw [here, dirEntries, if_pos type, entries]
      change _ = putEntry (dirEntries s.blocks (s.dinodes X)) k _
      rw [dirEntries, if_pos dir]
    · grind [others]
  · change fileBytes _ _ = fileBytes _ _
    grind [fileBytes, others]

end Disk

end Xv6.Fs
