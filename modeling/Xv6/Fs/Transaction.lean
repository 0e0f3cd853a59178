import Xv6.Fs.Reservation
import Xv6.Fs.System

/- The blocks that each call logs between begin_op and end_op. -/
namespace Xv6.Fs

open Exec hiding panic
open Namecache CString

section Within

variable {start : State} {blocks more : List Nat} {c : Outside} {p : Fin NPROC}
  {held : List (Fin NINODE × Nat)}
  {locked : List (Fin NINODE)} {s : State} {i : Fin NINODE} {X : Nat}

/-- In the middle of a call that began in `start` and has logged these blocks only. -/
structure Within (start : State) (blocks : List Nat) (c : Outside) (p : Fin NPROC)
    (held : List (Fin NINODE × Nat)) (locked : List (Fin NINODE)) (s : State) : Prop where
  mid : Midway c p held locked s
  logs : Logs blocks start s

theorem Within.mono (within : Within start blocks c p held locked s) (inside : blocks ⊆ more) :
    Within start more c p held locked s :=
  ⟨within.mid, within.logs.mono inside⟩

theorem Within.perm {held' : List (Fin NINODE × Nat)}
    (within : Within start blocks c p held locked s) (same : held.Perm held') :
    Within start blocks c p held' locked s :=
  ⟨within.mid.perm same, within.logs⟩

/-- A step that logs nothing. -/
theorem Within.silent {α : Type} {program : Exec State α} {post : α → State → Prop}
    (within : Within start blocks c p held locked s) (keeps : Keeps State.logged program)
    (step : Spec Stops.all program s post) :
    Spec Stops.all program s fun value s' => post value s' ∧ Logs blocks start s' := by
  refine Spec.mono (step.and (keeps.spec s)) ?_
  rintro value s' ⟨holds, logged⟩
  exact ⟨holds, within.logs.then logged⟩

theorem Within.ilock (within : Within start blocks c p held locked s) (member : (i, X) ∈ held) :
    Spec Stops.all (Fs.ilock p i) s fun _ s' => Within start blocks c p held (i :: locked) s' ∧
      s'.world = s.world ∧ i ∉ locked := by
  refine Spec.mono (within.silent (logged_uncached.ilock p i)
    (ilock_step within.mid member (fun _ => trivial) fun _ => trivial)) ?_
  rintro _ s' ⟨⟨mid, world, apart, _⟩, logs⟩
  exact ⟨⟨mid, logs⟩, world, apart⟩

theorem Within.iunlock (within : Within start blocks c p held (i :: locked) s)
    (apart : i ∉ locked) :
    Spec Stops.all (Fs.iunlock p i) s fun _ s' => Within start blocks c p held locked s' ∧
      s'.world = s.world := by
  refine Spec.mono (within.silent (logged_uncached.iunlock p i) (iunlock_step within.mid apart)) ?_
  rintro _ s' ⟨⟨mid, world⟩, logs⟩
  exact ⟨⟨mid, logs⟩, world⟩

theorem Within.iput (within : Within start blocks c p ((i, X) :: held) locked s)
    (reserved : freeing X ⊆ blocks) :
    Spec Stops.all (Fs.iput p i) s fun _ s' => Within start blocks c p held locked s' := by
  have mid := within.mid
  have inum : (s.icache i).inum = X := mid.names _ List.mem_cons_self
  refine Spec.mono ((iput_step mid fun _ => trivial).and
    (iput_logs mid.sane (mid.ref List.mem_cons_self) p)) ?_
  rintro _ s' ⟨⟨mid', _⟩, logs, _⟩
  rw [inum] at logs
  exact ⟨mid', within.logs.trans (logs.mono reserved)⟩

/-- Nothing is freed where each inode without links stays in use. -/
theorem Within.iputUsed (within : Within start blocks c p ((i, X) :: held) locked s)
    (rooted : NoOrphans (InUse c held) s.world) :
    Spec Stops.all (Fs.iput p i) s fun _ s' => Within start blocks c p held locked s' ∧
      s'.world = s.world := by
  have mid := within.mid
  have inum : (s.icache i).inum = X := mid.names _ List.mem_cons_self
  have used := mid.ref List.mem_cons_self
  refine Spec.mono ((iput_step mid fun _ => trivial).and (iput_logs mid.sane used p)) ?_
  rintro _ s' ⟨⟨mid', drop⟩, _, silent⟩
  refine ⟨⟨mid', within.logs.then (silent ?_)⟩, drop.still rooted⟩
  rintro ⟨valid, nlink, last⟩
  have slot := mid.sane.slots i
  have typed := slot.typed used valid
  rw [slot.coherent used valid rfl, inum] at nlink
  rw [inum] at typed
  exact mid.last last (rooted X typed nlink)

theorem Within.iunlockput (within : Within start blocks c p ((i, X) :: held) (i :: locked) s)
    (apart : i ∉ locked) (reserved : freeing X ⊆ blocks) :
    Spec Stops.all (Fs.iunlockput p i) s fun _ s' => Within start blocks c p held locked s' := by
  refine Spec.bind (within.iunlock apart) ?_
  grind [iput]

theorem Within.iunlockputUsed (within : Within start blocks c p ((i, X) :: held) (i :: locked) s)
    (apart : i ∉ locked) (rooted : NoOrphans (InUse c held) s.world) :
    Spec Stops.all (Fs.iunlockput p i) s fun _ s' => Within start blocks c p held locked s' ∧
      s'.world = s.world := by
  refine Spec.bind (within.iunlock apart) ?_
  grind [iputUsed]

theorem Within.change (within : Within start blocks c p held locked s) (member : (i, X) ∈ held)
    (own : i ∈ locked) (reserved : iblock X ∈ blocks) (ch : Change) :
    Spec Stops.all (Fs.change i ch) s fun _ s' => Within start blocks c p held locked s' ∧
      s'.world = s.world.change X ch := by
  have logs : Spec Stops.all (Fs.change i ch) s fun _ s' =>
    s'.logged = iblock (s.icache i).inum :: s.logged := by
    unfold Fs.change
    rw [setDin_eq]
    refine Spec.bind_modify (Spec.modify ?_)
    rw [putDin_self]
    rfl
  refine Spec.mono ((change_step within.mid member own ch).and logs) ?_
  rintro _ s' ⟨⟨mid, world⟩, logged⟩
  rw [within.mid.names _ member] at logged
  have one : Logs blocks s s' := ⟨[iblock X], logged,
    List.cons_subset.mpr ⟨reserved, List.nil_subset _⟩⟩
  exact ⟨⟨mid, within.logs.trans one⟩, world⟩

end Within

section Names

variable {start : State} {blocks : List Nat} {c : Outside} {p : Fin NPROC}
  {held : List (Fin NINODE × Nat)}
  {locked : List (Fin NINODE)} {s : State} {i : Fin NINODE} {P : Nat} {used : Nat → Prop}

theorem silent_takeFound (i : Fin NINODE) (name : List UInt8) (I off : Nat) :
    Keeps State.logged (takeFound i name I off) := by
  exact Keeps.bind_modify (fun _ => rfl) <| Keeps.get.bind fun s =>
    (logged_uncached.iget _ _).bind fun _ => Keeps.pure _

theorem dirlookup_logs (mid : Midway c p held locked s) (sees : Sees s i P) (name : List UInt8) :
    Spec Stops.all (dirlookup i name) s fun _ s' => s'.logged = s.logged := by
  refine Spec.bind_get ?_
  dsimp only
  split
  · exact Spec.panic trivial
  rename_i type
  rw [Decidable.not_not, sees.din] at type
  split
  · exact ((logged_uncached.iget _ _).bind fun _ => Keeps.pure _).spec s
  have opened := mid.opened sees type
  have scanned := opened.loop name (Nat.zero_add _)
  rw [← opened.all_offsets, List.drop_zero] at scanned
  cases found : scan name (s.world.entries P) with
  | none =>
    rw [found] at scanned
    constructor
    rw [scanned]
  | some entry =>
    rw [found] at scanned
    exact Spec.congr scanned ((silent_takeFound _ _ _ _).spec s)

theorem Within.dirlookup (within : Within start blocks c p held locked s) (sees : Sees s i P)
    (name : List UInt8) :
    Spec Stops.all (Fs.dirlookup i name) s fun found s' => s.world.type P = .dir ∧
      Recached s.world s'.world ∧
      match found with
      | none => s' = s
      | some (ip, off) =>
        ∃ I k, off = DIRENTSIZE * k ∧ Within start blocks c p ((ip, I) :: held) locked s' := by
  have mid := within.mid
  refine Spec.mono ((dirlookup_step (Or.inr trivial) (Nat.lt_succ_self _) mid sees
    (fun _ => trivial) name).and (dirlookup_logs mid sees name)) ?_
  rintro found s' ⟨⟨dir, post⟩, logged⟩
  cases found with
  | none => exact ⟨dir, post.2.recached, post.1⟩
  | some found =>
    obtain ⟨I, k, off, mid', lookup⟩ := post
    exact ⟨dir, lookup.recached, I, k, off, mid', within.logs.then logged⟩

/-- `dirlink` logs two blocks at most beside those of the directory: the one with the entry and an
indirect block, or the inode of the name when the directory has it. -/
theorem Within.dirlink (within : Within start blocks c p held locked s) (member : (i, P) ∈ held)
    (own : i ∈ locked) (reserved : freeing P ⊆ blocks) (name : List UInt8) {I : Nat}
    (fits : I < 2 ^ 16) (owns : ∀ j ∈ locked, ∃ Y, (j, Y) ∈ held) :
    Spec Stops.all (Fs.dirlink p i name I) s fun _ s' =>
      ∃ data, data.length ≤ 2 ∧ Within start (data ++ blocks) c p held locked s' := by
  have mid := within.mid
  have sees := mid.sees member own
  have logs : Spec Stops.all (Fs.dirlink p i name I) s fun _ s' =>
      ∃ data, data.length ≤ 2 ∧ Logs (data ++ blocks) start s' := by
    refine Spec.bind (within.dirlookup sees name) ?_
    rintro found s1 ⟨dir, _, post⟩
    cases found with
    | some found =>
      obtain ⟨J, _, _, within1⟩ := post
      have grown := within1.mono (List.subset_cons_self (iblock J) blocks)
      have bitmap : bblock 0 ∈ blocks := reserved List.mem_cons_self
      refine Spec.bind (grown.iput ?_) ?_
      · simp [bitmap]
      · exact fun _ s2 within2 => Spec.pure ⟨[iblock J], Nat.le_succ 1, within2.logs⟩
    | none =>
      rw [post]
      refine Spec.bind_get ?_
      have opened := mid.opened sees dir
      rw [opened.all_offsets]
      refine Spec.bind (emptySlot_step opened (Nat.zero_add _)) ?_
      rintro off s2 ⟨same, rfl⟩
      rw [same]
      refine Spec.bind (writei_logs _ 1 _ ?_) ?_
      · rw [dirent_bytes_length]
        grind
      rintro n s3 ⟨data, few, wrote⟩
      rw [sees.inum] at wrote
      split
      · exact Spec.panic trivial
      · refine Spec.bind_modify (Spec.pure ⟨data, few, Logs.then ?_ rfl⟩)
        refine (within.logs.mono (List.subset_append_right _ _)).trans (wrote.mono ?_)
        exact List.append_subset.mpr ⟨List.subset_append_left _ _,
          List.subset_append_of_subset_right _ reserved⟩
  refine Spec.mono ((dirlink_step (fun _ _ => trivial) (Or.inr trivial) (Nat.lt_succ_self _) mid
    member own name fits owns fun _ _ _ _ _ => trivial).and logs) ?_
  rintro linked s' ⟨⟨mid', _⟩, data, few, logged⟩
  exact ⟨data, few, mid', logged⟩

/-- A walk logs nothing, where each inode without links is in use by others than the call. -/
theorem Within.namexLoop (using_ : ∀ Y, used Y → InUse c held Y) (parent : Bool) {ip : Fin NINODE}
    {X : Nat} (names : List (List UInt8)) (within : Within start blocks c p ((ip, X) :: held) [] s)
    (rooted : NoOrphans used s.world) :
    Spec Stops.all (Fs.namexLoop p parent ip names) s fun _ s' => Logs blocks start s' := by
  induction names generalizing ip X s with
  | nil =>
    unfold Fs.namexLoop
    split
    · refine Spec.bind (within.iputUsed (rooted.mono using_)) ?_
      exact fun _ s1 done => Spec.pure done.1.logs
    · exact Spec.pure within.logs
  | cons name rest ih =>
    refine Spec.bind (within.ilock List.mem_cons_self) ?_
    rintro _ s1 ⟨within1, world1, _⟩
    rw [← world1] at rooted
    -- The walk ends here, and the inode is dropped.
    have leaves : Spec Stops.all (do
        Fs.iunlockput p ip
        return (none : Option (Fin NINODE × List UInt8))) s1 fun _ s' => Logs blocks start s' := by
      refine Spec.bind (within1.iunlockputUsed List.not_mem_nil (rooted.mono using_)) ?_
      exact fun _ s2 done => Spec.pure done.1.logs
    refine Spec.bind_get ?_
    split
    · exact leaves
    split
    · refine Spec.bind (within1.iunlock List.not_mem_nil) ?_
      exact fun _ s2 done => Spec.pure done.1.logs
    refine Spec.bind (within1.dirlookup (within1.mid.sees List.mem_cons_self List.mem_cons_self)
      name) ?_
    rintro found s2 ⟨_, same, post⟩
    cases found with
    | none =>
      rw [post]
      exact leaves
    | some found =>
      obtain ⟨I, _, _, within2⟩ := post
      have still := rooted.recached same
      refine Spec.bind ((within2.perm (List.Perm.swap _ _ _)).iunlockputUsed List.not_mem_nil
        ((still.with I).mono (with_inUse using_))) ?_
      grind

theorem Within.namex (using_ : ∀ Y, used Y → InUse c held Y) (running : c.Running Stops.all p)
    (path : List UInt8) (parent : Bool) (within : Within start blocks c p held [] s)
    (rooted : NoOrphans used s.world) :
    Spec Stops.all (Fs.namex p path parent) s fun found s' => Recached s.world s'.world ∧
      match found with
      | none => Within start blocks c p held [] s'
      | some (ip, _) => ∃ X, Within start blocks c p ((ip, X) :: held) [] s' := by
  have mid := within.mid
  have logs : Spec Stops.all (Fs.namex p path parent) s fun _ s' => Logs blocks start s' := by
    unfold Fs.namex
    split
    · refine Spec.bind (within.silent (logged_uncached.iget _ _)
        (iget_step (Or.inr trivial) (Nat.lt_succ_self _) mid ROOTINO)) ?_
      rintro ip s1 ⟨⟨mid1, world1⟩, logs1⟩
      rw [← world1] at rooted
      exact Within.namexLoop using_ parent _ ⟨mid1, logs1⟩ rooted
    · refine Spec.bind_get ?_
      rw [mid.procs]
      cases known : (c.procs p).cwd with
      | none => exact Spec.wait trivial
      | some cwd =>
        refine Spec.bind (within.silent (logged_uncached.idup _)
          (idup_step mid (running.refers cwd known))) ?_
        rintro ip s1 ⟨⟨rfl, mid1, world1⟩, logs1⟩
        rw [← world1] at rooted
        exact Within.namexLoop using_ parent _ ⟨mid1, logs1⟩ rooted
  have tour : Tour Stops.all used fun _ _ _ => True :=
    ⟨fun _ _ _ _ _ => trivial, fun _ _ _ _ _ _ _ _ _ _ _ _ => trivial⟩
  refine Spec.mono ((namex_step (Or.inr trivial) (Nat.lt_succ_self _) tour using_ path
    (fun _ => running) parent mid trivial).and logs) ?_
  rintro found s' ⟨⟨result, walk, arrives⟩, logged⟩
  refine ⟨(walk.eq_walk rooted).2, ?_⟩
  match found, result, arrives with
  | none, none, arrives => exact ⟨arrives, logged⟩
  | some (ip, name), some (X, _), ⟨_, mid', _⟩ => exact ⟨X, mid', logged⟩

theorem Within.namei (using_ : ∀ Y, used Y → InUse c held Y) (running : c.Running Stops.all p)
    (path : List UInt8) (within : Within start blocks c p held [] s)
    (rooted : NoOrphans used s.world) :
    Spec Stops.all (Fs.namei p path) s fun found s' => Recached s.world s'.world ∧
      match found with
      | none => Within start blocks c p held [] s'
      | some ip => ∃ X, Within start blocks c p ((ip, X) :: held) [] s' := by
  refine Spec.bind (Within.namex using_ running path false within rooted) ?_
  rintro found s1 ⟨same, post⟩
  cases found with
  | none => exact Spec.pure ⟨same, post⟩
  | some found => exact Spec.pure ⟨same, post⟩

end Names

section Create

variable {start : State} {blocks : List Nat} {c : Outside} {p : Fin NPROC} {s : State}
  {ip dp : Fin NINODE} {P X : Nat}

/-- The entries of a new directory. -/
theorem Within.dots (within : Within start blocks c p [(ip, X), (dp, P)] [ip, dp] s)
    (reserved : freeing X ⊆ blocks) (fits : X < 2 ^ 16) (parent : P < 2 ^ 16) :
    Spec Stops.all (create.dots p ip X P) s fun _ s' =>
      ∃ data, data.length ≤ 4 ∧ Within start (data ++ blocks) c p [(ip, X), (dp, P)] [ip, dp] s' :=
        by
  refine Spec.bind (within.dirlink List.mem_cons_self List.mem_cons_self reserved [46] fits
    (owns_pair ip dp X P)) ?_
  rintro linked s1 ⟨dot, few, within1⟩
  split
  · exact Spec.panic trivial
  refine Spec.bind (within1.dirlink List.mem_cons_self List.mem_cons_self
    (List.subset_append_of_subset_right _ reserved) [46, 46] parent (owns_pair ip dp X P)) ?_
  rintro linked s2 ⟨dotdot, few2, within2⟩
  refine Spec.when (fun _ => Spec.panic trivial) fun _ => ⟨dotdot ++ dot, ?_, ?_⟩
  · rw [List.length_append]
    omega
  · rw [List.append_assoc]
    exact within2

/-- The call returns with a new or an open inode, locked, or without one, and has logged at most
nine blocks. -/
def Creating (start : State) (c : Outside) (p : Fin NPROC) (found : Option (Fin NINODE))
    (s : State) : Prop :=
  ∃ blocks, blocks.length ≤ 9 ∧ match found with
    | none => Within start blocks c p [] [] s
    | some ip => ∃ I, freeing I ⊆ blocks ∧ Within start blocks c p [(ip, I)] [ip] s

theorem Within.create (within : Within start [] c p [] [] s) (running : c.Running Stops.all p)
    (rooted : NoOrphans c.Used s.world) {type : Itype} (typed : type ≠ .free) (path : List UInt8)
    (major minor : Int) :
    Spec Stops.all (Fs.create p path type major minor) s fun found s' =>
      Creating start c p found s' := by
  refine Spec.bind (Within.namex (inUse_nil c) running path true within rooted) ?_
  rintro found s1 ⟨_, post⟩
  cases found with
  | none => exact Spec.pure ⟨[], Nat.zero_le _, post⟩
  | some found =>
    obtain ⟨dp, name⟩ := found
    obtain ⟨P, within1⟩ := post
    refine Spec.bind (within1.ilock List.mem_cons_self) ?_
    rintro _ s2 ⟨within2, _, _⟩
    refine Spec.bind (within2.dirlookup (within2.mid.sees List.mem_cons_self List.mem_cons_self)
      name) ?_
    rintro lookedUp s3 ⟨dir, _, post⟩
    cases lookedUp with
    | some lookedUp =>
      obtain ⟨I, _, _, within3⟩ := post
      have grown := (within3.perm (List.Perm.swap _ _ _)).mono
        (List.nil_subset (iblock P :: freeing I))
      refine Spec.bind (grown.iunlockput List.not_mem_nil (by simp)) ?_
      intro _ s4 within4
      refine Spec.bind (within4.ilock List.mem_cons_self) ?_
      rintro _ s5 ⟨within5, _, _⟩
      refine Spec.bind_get ?_
      split
      · exact Spec.pure ⟨_, Nat.le_of_ble_eq_true rfl, I, List.subset_cons_self _ _, within5⟩
      · refine Spec.bind (within5.iunlockput List.not_mem_nil (List.subset_cons_self _ _)) ?_
        exact fun _ s6 within6 => Spec.pure ⟨_, Nat.le_of_ble_eq_true rfl, within6⟩
    | none =>
      rw [post]
      refine ialloc_step (fun _ _ => trivial) (Or.inr trivial) (Nat.lt_succ_self _)
        within2.mid typed fun ip X s5 vacant mid5 apart _ logged5 => ?_
      obtain ⟨_, below, _⟩ := vacant_spec vacant
      have fits : X < 2 ^ 16 := Nat.lt_trans below (by decide)
      have parent : P < 2 ^ 16 := numbered_small within2.mid (by rw [dir]; exact Itype.noConfusion)
      have within5 : Within start (iblock P :: freeing X) c p [(ip, X), (dp, P)] [ip, dp] s5 :=
        ⟨mid5, (within2.logs.mono (List.nil_subset _)).trans ⟨[iblock X], logged5, by simp⟩⟩
      have first : (ip, X) ∈ [(ip, X), (dp, P)] := List.mem_cons_self
      have second : (dp, P) ∈ [(ip, X), (dp, P)] := List.mem_cons_of_mem _ List.mem_cons_self
      have ownParent : dp ∈ [ip, dp] := List.mem_cons_of_mem _ List.mem_cons_self
      refine Spec.bind (within5.change first List.mem_cons_self (by simp) _) ?_
      rintro _ s6 ⟨within6, _⟩
      refine Spec.bind_get ?_
      rw [(within6.mid.sees first List.mem_cons_self).inum,
        (within6.mid.sees second ownParent).inum]
      refine Spec.through (fun _ s7 => ∃ data, data.length ≤ 4 ∧
        Within start (data ++ iblock P :: freeing X) c p [(ip, X), (dp, P)] [ip, dp] s7) ?_ ?_
      · refine Spec.when (fun _ => ?_) fun _ => ⟨[], Nat.zero_le _, within6⟩
        refine Spec.bind (within6.change second ownParent List.mem_cons_self _) ?_
        grind [dots, List.subset_cons_self]
      rintro _ s7 ⟨data, few, within7⟩
      refine Spec.bind (within7.dirlink second ownParent (by simp) name fits
        (owns_pair ip dp X P)) ?_
      rintro linked s8 ⟨entry, few8, within8⟩
      split
      · exact Spec.panic trivial
      have swapped : Within start _ c p [(dp, P), (ip, X)] [dp, ip] s8 :=
        ⟨(within8.mid.perm (List.Perm.swap _ _ _)).relock fun j =>
          (List.Perm.swap ip dp []).mem_iff, within8.logs⟩
      rw [List.mem_singleton] at apart
      refine Spec.bind (swapped.iunlockput (by simp [Ne.symm apart]) (by simp)) ?_
      intro _ s9 within9
      refine Spec.pure ⟨_, ?_, X, ?_, within9⟩
      · grind
      · simp

end Create

section Bodies

variable {p : Fin NPROC} {s : State} {blocks : List Nat} {s' start : State} {c : Outside}
  {ip : Fin NINODE}

/-- The blocks that were logged since state `s` fit in the reservation of `begin_op`. -/
def Reserved (s s' : State) : Prop :=
  ∃ new, s'.logged = new ++ s.logged ∧ new.toFinset.card ≤ MAXOPBLOCKS

theorem Logs.reserved (logs : Logs blocks s s') (few : blocks.length ≤ MAXOPBLOCKS) :
    Reserved s s' := by
  obtain ⟨new, grown, inside⟩ := logs
  refine ⟨new, grown, ?_⟩
  have fewer : new.toFinset ⊆ blocks.toFinset := by grind [List.mem_toFinset]
  exact ((Finset.card_le_card fewer).trans blocks.toFinset_card_le).trans few

theorem Reserved.then {s1 : State} (reserved : Reserved s s1) (same : s'.logged = s1.logged) :
    Reserved s s' := by
  obtain ⟨new, grown, few⟩ := reserved
  exact ⟨new, same.trans grown, few⟩

/-- A call that is over has logged few blocks, and left the tables as they were. -/
def Ended (start : State) (c : Outside) (p : Fin NPROC) (s : State) : Prop :=
  ∃ blocks, blocks.length ≤ MAXOPBLOCKS ∧ Within start blocks c p [] [] s

theorem Ended.reserved (ended : Ended start c p s) : Reserved start s := by
  obtain ⟨blocks, few, within⟩ := ended
  exact within.logs.reserved few

theorem Ended.tables (ended : Ended s s.outside p s') : tables s' = tables s := by
  obtain ⟨_, _, within⟩ := ended
  exact within.mid.tables

theorem Base.within (base : Base s) (p : Fin NPROC) : Within s [] s.outside p [] [] s :=
  ⟨base.mid p, Logs.refl _ _⟩

theorem running_outside (s : State) (p : Fin NPROC) : s.outside.Running Stops.all p :=
  ⟨fun _ known => refs_cwd known, fun _ => trivial⟩

theorem openInode_logs (base : Base s) (path : List UInt8) (omode : Int) :
    Spec Stops.all (openInode p path omode) s fun found s' => Creating s s.outside p found s' := by
  unfold openInode
  split
  · exact (base.within p).create (running_outside s p) base.noOrphans Itype.noConfusion path 0 0
  refine Spec.bind (Within.namei (inUse_nil _) (running_outside s p) path (base.within p)
    base.noOrphans) ?_
  rintro found s1 ⟨_, post⟩
  cases found with
  | none => exact Spec.pure ⟨[], Nat.zero_le _, post⟩
  | some ip =>
    obtain ⟨X, within1⟩ := post
    refine Spec.bind (within1.ilock List.mem_cons_self) ?_
    rintro _ s2 ⟨within2, _, _⟩
    have grown := within2.mono (List.nil_subset (freeing X))
    -- The permissions do not suffice.
    have drops : Spec Stops.all (do
        iunlockput p ip
        return none) s2 fun found s' => Creating s s.outside p found s' := by
      refine Spec.bind (grown.iunlockput List.not_mem_nil (List.Subset.refl _)) ?_
      exact fun _ s3 within3 => Spec.pure ⟨_, Nat.le_of_ble_eq_true rfl, within3⟩
    refine Spec.bind_get ?_
    dsimp only
    split
    · exact drops
    split
    · exact drops
    split
    · exact drops
    · exact Spec.pure ⟨_, Nat.le_of_ble_eq_true rfl, X, List.Subset.refl _, grown⟩

/-- The inode that was made or found is dropped at once. -/
theorem Creating.dropped (creating : Creating start c p (some ip) s) :
    Spec Stops.all (iunlockput p ip) s fun _ s' => Ended start c p s' := by
  obtain ⟨blocks, few, I, reserved, within⟩ := creating
  refine Spec.mono (within.iunlockput List.not_mem_nil reserved) ?_
  exact fun _ s' within' => ⟨blocks, Nat.le_succ_of_le few, within'⟩

theorem Creating.ended (creating : Creating start c p none s) : Ended start c p s := by
  obtain ⟨blocks, few, within⟩ := creating
  exact ⟨blocks, Nat.le_succ_of_le few, within⟩

theorem Creating.ftable (creating : Creating start c p (some ip) s) : s.ftable = c.ftable := by
  obtain ⟨_, _, _, _, within⟩ := creating
  exact within.mid.ftable

theorem Creating.putFile {found : Option (Fin NINODE)} (creating : Creating start c p found s)
    (f : Fin NFILE) (file : File) :
    Creating start { c with ftable := Function.update c.ftable f file } p found
      (s.putFile f file) := by
  obtain ⟨blocks, few, rest⟩ := creating
  cases found with
  | none => exact ⟨blocks, few, rest.mid.putFile f file, rest.logs⟩
  | some ip =>
    obtain ⟨I, reserved, within⟩ := rest
    exact ⟨blocks, few, I, reserved, within.mid.putFile f file, within.logs⟩

theorem Creating.reserved {found : Option (Fin NINODE)} (creating : Creating start c p found s) :
    Reserved start s := by
  obtain ⟨blocks, few, rest⟩ := creating
  cases found with
  | none => exact rest.logs.reserved (Nat.le_succ_of_le few)
  | some ip =>
    obtain ⟨_, _, within⟩ := rest
    exact within.logs.reserved (Nat.le_succ_of_le few)

theorem sysOpen_reserved (base : Base s) (path : List UInt8) (omode : Int) :
    Spec Stops.all (sysOpen p path omode) s fun _ s' => Reserved s s' := by
  refine Spec.bind (openInode_logs base path omode) ?_
  intro found s1 creating
  cases found with
  | none => exact Spec.pure creating.reserved
  | some ip =>
    refine Spec.bind filealloc_spec ?_
    intro found s2 post
    cases found with
    | none =>
      rw [post.2]
      exact Spec.bind creating.dropped fun _ _ ended => Spec.pure ended.reserved
    | some f =>
      obtain ⟨free, rfl⟩ := post
      have ftable : s1.ftable = s.ftable := creating.ftable
      refine Spec.bind (fdalloc_spec p f) ?_
      intro found s3 post
      cases found with
      | none =>
        rw [post.2]
        refine Spec.bind (fileclose_unused ?_ ?_) ?_
        · rw [putFile_self]
        · rw [putFile_self, ftable]
          rw [ftable] at free
          exact base.idle f free
        rintro _ _ rfl
        refine Spec.bind (Creating.dropped ((creating.putFile f _).putFile f _)) ?_
        exact fun _ _ ended => Spec.pure ended.reserved
      | some fd =>
        obtain ⟨_, rfl⟩ := post
        refine Spec.bind ((logged_uncached.iunlock p ip).spec _) ?_
        intro _ s4 logged
        exact Spec.bind_modify (Spec.pure (creating.reserved.then logged))

theorem makes_ended (base : Base s) (path : List UInt8) {type : Itype} (typed : type ≠ .free)
    (major minor : Int) :
    Spec Stops.all (do
      match ← create p path type major minor with
      | none => return (-1 : Int)
      | some ip =>
        iunlockput p ip
        return 0) s fun _ s' => Ended s s.outside p s' := by
  refine Spec.bind ((base.within p).create (running_outside s p) base.noOrphans typed path
    major minor) ?_
  intro found s1 creating
  cases found with
  | none => exact Spec.pure creating.ended
  | some ip => exact Spec.bind creating.dropped fun _ _ ended => Spec.pure ended

theorem link_bad_ended {I : Nat}
    (within : Within start blocks c p [(ip, I)] [] s) (reserved : freeing I ⊆ blocks)
    (few : blocks.length ≤ MAXOPBLOCKS) :
    Spec Stops.all (sysLink.bad p ip) s fun _ s' => Ended start c p s' := by
  refine Spec.bind (within.ilock List.mem_cons_self) ?_
  rintro _ s1 ⟨within1, _, _⟩
  have own : iblock I ∈ blocks := reserved (List.mem_cons_of_mem _ List.mem_cons_self)
  refine Spec.bind (within1.change List.mem_cons_self List.mem_cons_self own _) ?_
  rintro _ s2 ⟨within2, _⟩
  refine Spec.bind (within2.iunlockput List.not_mem_nil reserved) ?_
  exact fun _ s3 within3 => Spec.pure ⟨_, few, within3⟩

theorem sysLink_ended (base : Base s) (old new : List UInt8) :
    Spec Stops.all (sysLink p old new) s fun _ s' => Ended s s.outside p s' := by
  have running := running_outside s p
  refine Spec.bind (Within.namei (inUse_nil _) running old (base.within p) base.noOrphans) ?_
  rintro found s1 ⟨same1, post⟩
  cases found with
  | none => exact Spec.pure ⟨_, (Nat.zero_le _), post⟩
  | some ip =>
    obtain ⟨I, within1⟩ := post
    refine Spec.bind (within1.ilock List.mem_cons_self) ?_
    rintro _ s2 ⟨within2, world2, _⟩
    have rooted2 := base.noOrphans.recached same1
    rw [← world2] at rooted2
    have allocated : s2.world.type I ≠ .free :=
      (within2.mid.sees List.mem_cons_self List.mem_cons_self).allocated
    have grown := within2.mono (List.nil_subset (freeing I))
    refine Spec.bind_get ?_
    split
    · refine Spec.bind (grown.iunlockput List.not_mem_nil (List.Subset.refl _)) ?_
      exact fun _ s3 within3 => Spec.pure ⟨_, (Nat.le_of_ble_eq_true rfl), within3⟩
    refine Spec.bind (grown.change List.mem_cons_self List.mem_cons_self (by simp) _) ?_
    rintro _ s3 ⟨within3, world3⟩
    refine Spec.bind (within3.iunlock List.not_mem_nil) ?_
    rintro _ s4 ⟨within4, world4⟩
    have rooted4 := rooted2.change I .link
    rw [← world3, ← world4] at rooted4
    refine Spec.bind (Within.namex (with_inUse (inUse_nil _)) running new true within4 rooted4) ?_
    rintro found s5 ⟨same5, post⟩
    have type5 : s5.world.type I ≠ .free := by
      obtain ⟨cache, world5⟩ := same5
      rw [world5, world4, world3]
      exact (type_change _ _ _ _).trans_ne allocated
    cases found with
    | none => exact link_bad_ended post (List.Subset.refl _) (Nat.le_of_ble_eq_true rfl)
    | some found =>
      obtain ⟨dp, name⟩ := found
      obtain ⟨P, within5⟩ := post
      refine Spec.bind (within5.ilock List.mem_cons_self) ?_
      rintro _ s6 ⟨within6, world6, _⟩
      rw [← world6] at type5
      have both := within6.mono (List.subset_cons_self (iblock P) _)
      refine Spec.bind_get ?_
      split
      · refine Spec.bind (both.iunlockput List.not_mem_nil (by simp)) ?_
        exact fun _ s7 within7 => link_bad_ended within7 (List.subset_cons_self _ _)
          (Nat.le_of_ble_eq_true rfl)
      have held : (ip, I) ∈ [(dp, P), (ip, I)] := List.mem_cons_of_mem _ List.mem_cons_self
      rw [show (s6.icache ip).inum = I from within6.mid.names _ held]
      refine Spec.bind (both.dirlink List.mem_cons_self List.mem_cons_self (by simp) name
        (numbered_small within6.mid type5) ?_) ?_
      · simp
      rintro linked s7 ⟨data, few, within7⟩
      have total : (data ++ iblock P :: freeing I).length ≤ MAXOPBLOCKS := by grind
      refine Spec.bind (within7.iunlockput List.not_mem_nil (by simp)) ?_
      intro _ s8 within8
      split
      · exact link_bad_ended within8 (by simp) total
      · refine Spec.bind (within8.iput (by simp)) ?_
        exact fun _ s9 within9 => Spec.pure ⟨_, total, within9⟩

/-- The part of `sys_unlink` that removes the entry. -/
theorem unlink_removes_ended {dp : Fin NINODE} {P I k : Nat} {type : Itype}
    (within : Within start (iblock P :: freeing I) c p [(ip, I), (dp, P)] [ip, dp] s)
    (apart : ip ∉ [dp]) (dir : s.world.type P = .dir) :
    Spec Stops.all (do
      sysUnlink.invalidate ip
      sysUnlink.invalidate dp
      let n ← writei dp (List.replicate DIRENTSIZE 0) (DIRENTSIZE * k)
      if n ≠ DIRENTSIZE then Exec.panic "unlink: writei"
      else
        when (type = .dir) (change dp .unlink)
        iunlockput p dp
        change ip .unlink
        iunlockput p ip
        return (0 : Int)) s fun _ s' => Ended start c p s' := by
  have ownParent : dp ∈ [ip, dp] := List.mem_cons_of_mem _ List.mem_cons_self
  have second : (dp, P) ∈ [(ip, I), (dp, P)] := List.mem_cons_of_mem _ List.mem_cons_self
  refine Spec.bind_modify (Spec.bind_modify ?_)
  have mid2 := (within.mid.putCache (namecacheInvalidate s.namecache (s.icache ip).dev
    (s.icache ip).inum)).putCache
    (namecacheInvalidate (namecacheInvalidate s.namecache (s.icache ip).dev (s.icache ip).inum)
      (s.icache dp).dev (s.icache dp).inum)
  have sees := mid2.sees second ownParent
  refine Spec.bind ((writeEntry_step (fun _ _ => trivial) mid2 sees dir List.length_replicate).and
    (writei_logs _ 1 _ ?_)) ?_
  · grind
  rintro n s3 ⟨wrote, data, few, logs⟩
  split
  · exact Spec.panic trivial
  rename_i whole
  obtain ⟨_, mid3, _⟩ := wrote (Decidable.not_not.mp whole)
  rw [sees.inum] at logs
  have within3 : Within start (data ++ iblock P :: freeing I) c p [(ip, I), (dp, P)] [ip, dp] s3 :=
    by
    refine ⟨mid3, (within.logs.mono (List.subset_append_right _ _)).trans
      ((logs.after rfl).mono ?_)⟩
    simp
  have total : (data ++ iblock P :: freeing I).length ≤ MAXOPBLOCKS := by grind
  refine Spec.through (fun _ s4 => Within start (data ++ iblock P :: freeing I) c p
    [(ip, I), (dp, P)] [ip, dp] s4) ?_ ?_
  · refine Spec.when (fun _ => ?_) fun _ => within3
    exact Spec.mono (within3.change second ownParent (by simp) _) fun _ s4 done => done.1
  intro _ s4 within4
  have swapped : Within start _ c p [(dp, P), (ip, I)] [dp, ip] s4 :=
    ⟨(within4.mid.perm (List.Perm.swap _ _ _)).relock fun j => (List.Perm.swap ip dp []).mem_iff,
      within4.logs⟩
  rw [List.mem_singleton] at apart
  refine Spec.bind (swapped.iunlockput (by simp [Ne.symm apart]) (by simp)) ?_
  intro _ s5 within5
  refine Spec.bind (within5.change List.mem_cons_self List.mem_cons_self (by simp) _) ?_
  rintro _ s6 ⟨within6, _⟩
  refine Spec.bind (within6.iunlockput List.not_mem_nil (by simp)) ?_
  exact fun _ s7 within7 => Spec.pure ⟨_, total, within7⟩

theorem sysUnlink_ended (base : Base s) (path : List UInt8) :
    Spec Stops.all (sysUnlink p path) s fun _ s' => Ended s s.outside p s' := by
  refine Spec.bind (Within.namex (inUse_nil _) (running_outside s p) path true (base.within p)
    base.noOrphans) ?_
  rintro found s1 ⟨_, post⟩
  cases found with
  | none => exact Spec.pure ⟨_, (Nat.zero_le _), post⟩
  | some found =>
    obtain ⟨dp, name⟩ := found
    obtain ⟨P, within1⟩ := post
    refine Spec.bind (within1.ilock List.mem_cons_self) ?_
    rintro _ s2 ⟨within2, _, _⟩
    -- The error path, with what was logged in front of it.
    have bad : ∀ {blocks : List Nat} {s3 : State}, Within s blocks s.outside p [(dp, P)] [dp] s3 →
        freeing P ⊆ blocks → blocks.length ≤ MAXOPBLOCKS →
        Spec Stops.all (sysUnlink.bad p dp) s3 fun _ s' => Ended s s.outside p s' := by
      intro blocks s3 within3 reserved few
      refine Spec.bind (within3.iunlockput List.not_mem_nil reserved) ?_
      exact fun _ s4 within4 => Spec.pure ⟨_, few, within4⟩
    have single := bad (within2.mono (List.nil_subset _)) (List.Subset.refl _)
      (Nat.le_of_ble_eq_true rfl)
    split
    · exact single
    refine Spec.bind (within2.dirlookup (within2.mid.sees List.mem_cons_self List.mem_cons_self)
      name) ?_
    rintro lookedUp s3 ⟨dir, same, post⟩
    cases lookedUp with
    | none =>
      rw [post]
      exact single
    | some lookedUp =>
      obtain ⟨ip, off⟩ := lookedUp
      obtain ⟨I, k, rfl, within3⟩ := post
      refine Spec.bind (within3.ilock List.mem_cons_self) ?_
      rintro _ s4 ⟨within4, world4, apart⟩
      have dir4 : s4.world.type P = .dir := by
        obtain ⟨cache, world3⟩ := same
        rw [world4, world3]
        exact dir
      have grown := within4.mono (List.nil_subset (iblock P :: freeing I))
      refine Spec.bind_get ?_
      split
      · exact Spec.panic trivial
      refine Spec.through (fun _ s5 => s5 = s4) ?_ ?_
      · split
        · rename_i isDir
          have sees := within4.mid.sees List.mem_cons_self List.mem_cons_self
          rw [sees.din] at isDir
          exact Spec.mono (isdirempty_step within4.mid sees isDir) fun _ _ done => done.1
        · exact Spec.pure rfl
      rintro empty s5 rfl
      split
      · refine Spec.bind (grown.iunlockput apart (List.subset_cons_self _ _)) ?_
        exact fun _ s6 within6 => bad within6 (by simp) (Nat.le_of_ble_eq_true rfl)
      · exact unlink_removes_ended grown apart dir4

/-- A reference of the tables is given up. -/
theorem Within.leave {held : List (Fin NINODE × Nat)} {i : Fin NINODE}
    (within : Within start blocks c p held [] s) (used : 0 < c.refs i) (few : blocks.length ≤ 8) :
    Spec Stops.all (Fs.iput p i) s fun _ s' => Reserved start s' := by
  have taken : Within start (freeing (c.inum i) ++ blocks) _ p _ [] s :=
    ⟨within.mid.take used, within.logs.mono (List.subset_append_right _ _)⟩
  refine Spec.mono (taken.iput (List.subset_append_left _ _)) ?_
  intro _ s' within'
  refine within'.logs.reserved ?_
  grind

/-- A walk to an inode, and what is done with it under its lock. -/
theorem visits_spec (base : Base s) (path : List UInt8) {act : Fin NINODE → Exec State Int}
    {post : State → Prop} (lost : ∀ s', Ended s s.outside p s' → post s')
    (acts : ∀ ip X s2, Within s [] s.outside p [(ip, X)] [ip] s2 → Spec Stops.all (act ip) s2
      fun _ s' => post s') :
    Spec Stops.all (do
      match ← namei p path with
      | none => return -1
      | some ip =>
        ilock p ip
        act ip) s fun _ s' => post s' := by
  refine Spec.bind (Within.namei (inUse_nil _) (running_outside s p) path (base.within p)
    base.noOrphans) ?_
  rintro found s1 ⟨_, arrives⟩
  cases found with
  | none => exact Spec.pure (lost s1 ⟨[], Nat.zero_le _, arrives⟩)
  | some ip =>
    obtain ⟨X, within1⟩ := arrives
    refine Spec.bind (within1.ilock List.mem_cons_self) ?_
    exact fun _ s2 locked => acts ip X s2 locked.1

/-- The inode is dropped, after its own block was logged. -/
theorem Within.dropped {X : Nat}
    (within : Within start (freeing X) c p [(ip, X)] [ip] s) (r : Int) :
    Spec Stops.all (do
      Fs.iunlockput p ip
      return r) s fun _ s' => Ended start c p s' := by
  refine Spec.bind (within.iunlockput List.not_mem_nil (List.Subset.refl _)) ?_
  exact fun _ s' within' => Spec.pure ⟨_, Nat.le_of_ble_eq_true rfl, within'⟩

theorem sysChdir_reserved (base : Base s) (path : List UInt8) :
    Spec Stops.all (sysChdir p path) s fun _ s' => Reserved s s' := by
  refine visits_spec base path (fun _ ended => ended.reserved) fun ip X s2 within => ?_
  refine Spec.bind_get ?_
  split
  · exact Spec.mono ((within.mono (List.nil_subset _)).dropped (-1)) fun _ _ ended => ended.reserved
  refine Spec.bind (within.iunlock List.not_mem_nil) ?_
  rintro _ s3 ⟨within3, _⟩
  rw [show s2.procs = s.procs from within.mid.procs]
  cases known : (s.procs p).cwd with
  | none => exact Spec.wait trivial
  | some cwd =>
    refine Spec.bind (within3.leave (refs_cwd known) (Nat.zero_le _)) ?_
    exact fun _ s4 reserved => Spec.bind_modify (Spec.pure (reserved.then rfl))

theorem sysChmod_ended (base : Base s) (path : List UInt8) (mode : Int) :
    Spec Stops.all (sysChmod p path mode) s fun _ s' => Ended s s.outside p s' := by
  refine visits_spec base path (fun _ ended => ended) fun ip X s2 within => ?_
  have grown := within.mono (List.nil_subset (freeing X))
  refine Spec.bind_get ?_
  split
  · exact grown.dropped (-1)
  refine Spec.bind (grown.change List.mem_cons_self List.mem_cons_self (by simp) _) ?_
  exact fun _ s3 changed => changed.1.dropped 0

theorem sysChown_ended (base : Base s) (path : List UInt8) (uid : Int) :
    Spec Stops.all (sysChown p path uid) s fun _ s' => Ended s s.outside p s' := by
  refine Spec.bind_get ?_
  split
  · exact Spec.pure ⟨[], Nat.zero_le _, base.within p⟩
  refine visits_spec base path (fun _ ended => ended) fun ip X s2 within => ?_
  have grown := within.mono (List.nil_subset (freeing X))
  refine Spec.bind (grown.change List.mem_cons_self List.mem_cons_self (by simp) _) ?_
  exact fun _ s3 changed => changed.1.dropped 0

theorem exec_ended (base : Base s) (path : List UInt8) (setupkvm : Bool) (enough : Nat → Bool)
    (rest : Bool) :
    Spec Stops.all (exec p path setupkvm enough rest) s fun _ s' => Ended s s.outside p s' := by
  refine visits_spec base path (fun _ ended => ended) fun ip X s2 within => ?_
  have grown := within.mono (List.nil_subset (freeing X))
  have sees := within.mid.sees List.mem_cons_self List.mem_cons_self
  refine Spec.bind (readi_spec within.mid.sane sees.used sees.valid rfl _ _) ?_
  rintro result s3 ⟨same, _⟩
  rw [same]
  dsimp only
  split
  · exact grown.dropped (-1)
  split
  · exact grown.dropped (-1)
  split
  · exact grown.dropped (-1)
  refine Spec.bind (loadProgram_spec within.mid.sane sees.used sees.valid _ _ _ _) ?_
  rintro loaded s4 rfl
  split
  · exact grown.dropped _
  · exact grown.dropped (-1)

theorem fileclose_reserved (base : Base s) (f : Fin NFILE) :
    Spec Stops.all (fileclose p f) s fun _ s' => Reserved s s' := by
  have none : Reserved s s := (Logs.refl [] s).reserved (Nat.zero_le _)
  refine Spec.bind_get ?_
  dsimp only
  split
  · exact Spec.panic trivial
  split
  · exact Spec.modify (none.then rfl)
  refine Spec.bind_modify ?_
  cases type : (s.ftable f).type with
  | none => exact Spec.pure (none.then rfl)
  | pipe =>
    refine Spec.bind_get ?_
    split
    · exact Spec.modify (none.then rfl)
    · exact Spec.pure (none.then rfl)
  | inode =>
    have within := base.within p
    exact Within.leave ⟨within.mid.putFile f _, within.logs⟩ (refs_file type) (Nat.zero_le _)

theorem filewriteRound_reserved (base : Base s) {f : Fin NFILE} (type : (s.ftable f).type = .inode)
    (src : List UInt8) :
    Spec Stops.all (filewriteRound p f (nextChunk src)) s fun _ s' => Reserved s s' := by
  have taken : Within s [] _ p _ [] s := ⟨(base.mid p).take (refs_file type), Logs.refl _ _⟩
  refine Spec.bind_get ?_
  refine Spec.bind (taken.ilock List.mem_cons_self) ?_
  rintro _ s1 ⟨within1, _, _⟩
  refine Spec.bind (writei_logs (s.ftable f).off 2 _ ?_) ?_
  · rw [nextChunk_length]
    simp only [BSIZE]
    omega
  rintro r s2 ⟨data, few, logs⟩
  have all : Reserved s s2 := by
    refine ((within1.logs.mono (List.nil_subset _)).trans logs).reserved ?_
    grind
  refine Spec.through (fun _ s3 => Reserved s s3) ?_ ?_
  · exact Spec.when (fun _ => Spec.modify (all.then rfl)) fun _ => all
  intro _ s3 reserved
  refine Spec.bind ((logged_uncached.iunlock p _).spec s3) ?_
  exact fun _ s4 logged => Spec.pure (reserved.then logged)

/-- What stands between a `begin_op` and its `end_op`. -/
inductive Transaction where
  | sysLink (old new : List UInt8)
  | sysUnlink (path : List UInt8)
  | sysOpen (path : List UInt8) (omode : Int)
  | sysMkdir (path : List UInt8)
  | sysMknod (path : List UInt8) (major minor : Int)
  | sysChdir (path : List UInt8)
  | sysChmod (path : List UInt8) (mode : Int)
  | sysChown (path : List UInt8) (uid : Int)
  | exec (path : List UInt8) (setupkvm : Bool) (enough : Nat → Bool) (rest : Bool)
  /-- The `iput` of the directory of a process that exits. -/
  | exit
  | fileclose (f : Fin NFILE)
  /-- A round of the loop of `filewrite` that has `src` left to write. -/
  | filewrite (f : Fin NFILE) (src : List UInt8)

def Transaction.perform (p : Fin NPROC) : Transaction → Exec State Int
  | .sysLink old new => Fs.sysLink p old new
  | .sysUnlink path => Fs.sysUnlink p path
  | .sysOpen path omode => Fs.sysOpen p path omode
  | .sysMkdir path => Fs.sysMkdir p path
  | .sysMknod path major minor => Fs.sysMknod p path major minor
  | .sysChdir path => Fs.sysChdir p path
  | .sysChmod path mode => Fs.sysChmod p path mode
  | .sysChown path uid => Fs.sysChown p path uid
  | .exec path setupkvm enough rest => Fs.exec p path setupkvm enough rest
  | .exit => do
    let s ← get
    match (s.procs p).cwd with
    | some cwd =>
      iput p cwd
      return 0
    | none => wait
  | .fileclose f => do
    Fs.fileclose p f
    return 0
  | .filewrite f src => do
    let s ← get
    if (s.ftable f).type = .inode then filewriteRound p f (nextChunk src) else return -1

/-- Every transaction that ends has logged at most MAXOPBLOCKS different blocks. -/
theorem transaction_reserved (base : Base s) (body : Transaction) {r : Int} {s' : State}
    (returned : body.perform p s = .ok (r, s')) : Reserved s s' := by
  suffices holds : Spec Stops.all (body.perform p) s fun _ s' =>
    Reserved s s' from holds.ok returned
  cases body with
  | sysLink old new => exact (sysLink_ended base old new).mono fun _ _ ended => ended.reserved
  | sysUnlink path => exact (sysUnlink_ended base path).mono fun _ _ ended => ended.reserved
  | sysOpen path omode => exact sysOpen_reserved base path omode
  | sysMkdir path => exact (makes_ended base path Itype.noConfusion 0 0).mono fun _ _ ended =>
      ended.reserved
  | sysMknod path major minor =>
    exact (makes_ended base path Itype.noConfusion major minor).mono fun _ _ ended => ended.reserved
  | sysChdir path => exact sysChdir_reserved base path
  | sysChmod path mode => exact (sysChmod_ended base path mode).mono fun _ _ ended => ended.reserved
  | sysChown path uid => exact (sysChown_ended base path uid).mono fun _ _ ended => ended.reserved
  | exec path setupkvm enough rest =>
    exact (exec_ended base path setupkvm enough rest).mono fun _ _ ended => ended.reserved
  | exit =>
    refine Spec.bind_get ?_
    cases known : (s.procs p).cwd with
    | none => exact Spec.wait trivial
    | some cwd =>
      refine Spec.bind ((base.within p).leave (refs_cwd known) (Nat.zero_le _)) ?_
      exact fun _ s1 reserved => Spec.pure reserved
  | fileclose f =>
    exact Spec.bind (fileclose_reserved base f) fun _ s1 reserved => Spec.pure reserved
  | filewrite f src =>
    refine Spec.bind_get ?_
    split
    · rename_i type
      exact filewriteRound_reserved base type src
    · exact Spec.pure ((Logs.refl [] s).reserved (Nat.zero_le _))

/-- The first directory on a new disk: its inode and the one of its parent, two data blocks and
the bitmap. -/
theorem transaction_reserved_mkdir : ∃ im s', Mkfs.mkfs [] = some im ∧
    (Transaction.sysMkdir [47, 97]).perform 0 (im.boot fun _ => none) = .ok (0, s') ∧
    Reserved (im.boot fun _ => none) s' := by
  obtain ⟨im, made, room, ran⟩ : Mkfs.Yields [] fun im =>
      ((Transaction.sysMkdir [47, 97]).perform 0 (im.boot fun _ => none)).toOption.map Prod.fst =
        some 0 := by
    decide +kernel
  obtain ⟨⟨r, s'⟩, ran, rfl⟩ := Option.map_eq_some_iff.mp ran
  have returned := Outcome.toOption_eq_some.mp ran
  have base := @base_boot im [] (fun _ => none) (Mkfs.mkfs_made made (by decide) room)
  exact ⟨im, s', made, returned, transaction_reserved base _ returned⟩

end Bodies

end Xv6.Fs
