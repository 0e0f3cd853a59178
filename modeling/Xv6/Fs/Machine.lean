import Xv6.Fs.System

/- The inode operations as the system calls use them, by any processes and in any
order. A process that reads or changes an inode holds its lock, and one that has
changed a field calls iupdate before it does anything else with the inode. -/
namespace Xv6.Fs

open Exec hiding panic
open Ownership

variable {dirty : Fin NINODE → Bool} {s : State}

inductive Event where
  | ialloc (p : Fin NPROC) (type : Itype)
  | iget (inum : Nat)
  | idup (i : Fin NINODE)
  | ilock (p : Fin NPROC) (i : Fin NINODE)
  | iunlock (p : Fin NPROC) (i : Fin NINODE)
  | iput (p : Fin NPROC) (i : Fin NINODE)
  | set (p : Fin NPROC) (i : Fin NINODE) (c : Change)
  | iupdate (p : Fin NPROC) (i : Fin NINODE)
  | readi (p : Fin NPROC) (i : Fin NINODE) (off n : Nat)
  | writei (p : Fin NPROC) (i : Fin NINODE) (src : List UInt8) (off : Nat)

/-- The state of the file system, and which slots were changed and not yet written back. -/
structure Machine where
  fs : State
  dirty : Fin NINODE → Bool

def Event.perform : Event → Exec State Unit
  | .ialloc p type => do let _ ← Fs.ialloc p type
  | .iget inum => do let _ ← Fs.iget ROOTDEV inum
  | .idup i => do let _ ← Fs.idup i
  | .ilock p i => Fs.ilock p i
  | .iunlock p i => Fs.iunlock p i
  | .iput p i => Fs.iput p i
  | .set _ i c => setDin i c.apply
  | .iupdate _ i => Fs.iupdate i
  | .readi _ i off n => do let _ ← Fs.readi i off n
  | .writei _ i src off => do let _ ← Fs.writei i src off

/-- What a system call makes sure of before the operation. -/
def Event.Proper (m : Machine) : Event → Prop
  | .ialloc _ type => type ≠ .free
  | .iget inum => inum < NINODES
  | .idup i => 0 < (m.fs.icache i).ref
  | .ilock _ _ => True
  | .iunlock _ i => m.dirty i = false
  | .iput _ i => 0 < (m.fs.icache i).ref
  | .set p i _ => (m.fs.icache i).lock = some p
  | .iupdate p i => (m.fs.icache i).lock = some p
  | .readi p i _ _ => (m.fs.icache i).lock = some p ∧ m.dirty i = false
  | .writei p i _ _ => (m.fs.icache i).lock = some p ∧ m.dirty i = false

instance (m : Machine) : (event : Event) → Decidable (event.Proper m)
  | .ialloc _ type => inferInstanceAs (Decidable (type ≠ .free))
  | .iget inum => inferInstanceAs (Decidable (inum < NINODES))
  | .idup i => inferInstanceAs (Decidable (0 < (m.fs.icache i).ref))
  | .ilock _ _ => inferInstanceAs (Decidable True)
  | .iunlock _ i => inferInstanceAs (Decidable (m.dirty i = false))
  | .iput _ i => inferInstanceAs (Decidable (0 < (m.fs.icache i).ref))
  | .set p i _ => inferInstanceAs (Decidable ((m.fs.icache i).lock = some p))
  | .iupdate p i => inferInstanceAs (Decidable ((m.fs.icache i).lock = some p))
  | .readi p i _ _ => inferInstanceAs (Decidable ((m.fs.icache i).lock = some p ∧
      m.dirty i = false))
  | .writei p i _ _ => inferInstanceAs (Decidable ((m.fs.icache i).lock = some p ∧
      m.dirty i = false))

def Event.mark (dirty : Fin NINODE → Bool) : Event → Fin NINODE → Bool
  | .set _ i _ => Function.update dirty i true
  | .iupdate _ i => Function.update dirty i false
  | _ => dirty

def step (m : Machine) (event : Event) : Outcome Machine :=
  if event.Proper m then
    (event.perform m.fs).map fun result => ⟨result.2, event.mark m.dirty⟩
  else .blocked

/-- The machine when the kernel starts on an image. -/
def boot (im : Mkfs.Image) (devsw : Int → Option Device) : Machine := ⟨im.boot devsw, clean⟩

/-- The state after a run, if every operation of it returns. -/
def runOps (m : Machine) (events : List Event) : Option Machine :=
  Runs.run (fun m event => (step m event).toOption) m events

section Step

variable {allowed : Stops} {m : Machine} {s' : State} {i : Fin NINODE}

/-- A block that has become somebody's was free before. -/
def Sparing (s s' : State) : Prop :=
  ∀ key, owner s.blocks s.dinodes key = 0 → owner s'.blocks s'.dinodes key ≠ 0 →
    s.bitmap (owner s'.blocks s'.dinodes key) = false

/-- So it is when nobody lost a block. -/
theorem Sparing.of_kept (before : Owned s.blocks s.dinodes s.bitmap)
    (after : Owned s'.blocks s'.dinodes s'.bitmap) (kept : ∀ key, owner s.blocks s.dinodes key ≠ 0 →
      owner s'.blocks s'.dinodes key = owner s.blocks s.dinodes key) : Sparing s s' := by
  intro key none some
  obtain ⟨lower, upper⟩ := after.inRange key some
  by_contra marked
  rw [Bool.not_eq_false] at marked
  rcases (before.usedIff _ upper).mp marked with reserved | ⟨other, same, nonzero⟩
  · omega
  · have still := kept other (by rwa [same])
    have equal := after.once key other some (by rw [still, same])
    rw [equal, same] at none
    exact some none

theorem Sparing.of_same (same : owner s'.blocks s'.dinodes = owner s.blocks s.dinodes) :
    Sparing s s' := by
  intro key none some
  rw [same] at some
  exact (some none).elim

theorem Sparing.of_quiet (quiet : Quiet s s') : Sparing s s' := by
  refine Sparing.of_same ?_
  rw [quiet.blocks, quiet.dinodes]

/-- Freeing an inode gives no block to anybody. -/
theorem Sparing.of_gone (gone : Gone s s' i) : Sparing s s' := by
  intro key none some
  rw [gone.blocks, gone.dinodes, owner_freed gone.type, cleared] at some
  grind

/-- A write of the content keeps the blocks that the inodes had. -/
theorem Stored.kept {off : Nat} {src : List UInt8}
    (sane : Sane dirty s) (used : 0 < (s.icache i).ref) (valid : (s.icache i).valid = true)
    (clean : dirty i = false) (stored : Stored s s' i off src) (key : Nat × Nat)
    (some : owner s.blocks s.dinodes key ≠ 0) :
    owner s'.blocks s'.dinodes key = owner s.blocks s.dinodes key := by
  have slot := sane.slots i
  have coherent := slot.coherent used valid clean
  have typed := slot.typed used valid
  have type : (s'.icache i).din.type = (s.icache i).din.type := by rw [stored.din]
  rw [stored.written.dinodes]
  unfold owner at some ⊢
  by_cases here : key.1 = (s.icache i).inum
  · grind [Function.update_self, addr]
  · rw [Function.update_of_ne here]
    by_cases free : (s.dinodes key.1).type = .free
    · rw [if_pos free, if_pos free]
    · rw [if_neg free, if_neg free]
      exact ((stored.foreign key.1 here free) key.2).1

/-- The copy in a slot that is locked has the content of the disk inode. -/
theorem Sane.alike_of_locked (sane : Sane dirty s)
    (taken : (s.icache i).lock ≠ none) : Alike (s.dinodes (s.icache i).inum) (s.icache i).din := by
  have use := (sane.slots i).locked taken
  cases known : dirty i with
  | true => exact (sane.slots i).ahead known
  | false =>
    rw [(sane.slots i).coherent use.1 use.2 known]
    exact Alike.refl _

/-- Each operation keeps the file system sane, takes free blocks only, and does not free
one that is free. -/
theorem perform_spec (others : ∀ message, message ≠ "freeing free block" → allowed message)
    (waits : allowed.waits) (sane : Sane m.dirty m.fs) (event : Event) (proper : event.Proper m) :
    Spec allowed event.perform m.fs fun _ s' => Sane (event.mark m.dirty) s' ∧ Sparing m.fs s' := by
  have lenient : Lenient allowed := by
    intro message member
    refine others message ?_
    rintro rfl
    exact absurd member (by decide)
  cases event with
  | ialloc p type =>
    refine Spec.bind (ialloc_spec lenient (fun _ => others _ (by decide)) sane type) ?_
    rintro i s' ⟨X, _, _, _, free, kept, got⟩
    refine Spec.pure ⟨kept, Sparing.of_same ?_⟩
    rw [got.quiet.blocks, got.quiet.dinodes]
    funext key
    unfold owner
    change (if (Function.update m.fs.dinodes X _ key.1).type = .free then 0
      else blockAddr m.fs.blocks (Function.update m.fs.dinodes X _ key.1) key.2) = _
    by_cases new : key.1 = X
    · rw [new, Function.update_self, free, if_pos rfl]
      have zero : blockAddr m.fs.blocks (newDinode type (m.fs.procs p).uid (m.fs.procs p).gid)
        key.2 = 0 := by
        unfold blockAddr
        simp only [newDinode, Dinode.zero, ↓reduceIte, ite_self]
      rw [zero, ite_self]
    · rw [Function.update_of_ne new]
  | iget inum =>
    refine Spec.bind (iget_spec (fun _ => others _ (by decide)) sane inum) ?_
    rintro i s' ⟨kept, got⟩
    exact Spec.pure ⟨kept, Sparing.of_quiet got.quiet⟩
  | idup i =>
    refine Spec.bind (idup_spec sane proper) ?_
    rintro j s' ⟨_, kept, rfl⟩
    exact Spec.pure ⟨kept, Sparing.of_quiet (Quiet.setSlot _ _ _)⟩
  | ilock p i =>
    refine Spec.mono (ilock_spec sane (fun _ => others _ (by decide)) (fun _ => waits)
      fun _ => others _ (by decide)) ?_
    rintro _ s' ⟨kept, rfl, _⟩
    exact ⟨kept, Sparing.of_quiet (Quiet.setSlot _ _ _)⟩
  | iunlock p i =>
    refine Spec.mono (iunlock_spec sane proper fun _ => others _ (by decide)) ?_
    rintro _ s' ⟨kept, rfl⟩
    exact ⟨kept, Sparing.of_quiet (Quiet.setSlot _ _ _)⟩
  | iput p i =>
    refine Spec.mono (iput_spec sane proper fun _ => waits) ?_
    rintro _ s' ⟨kept, _, dropped | gone⟩
    · exact ⟨kept, Sparing.of_quiet dropped.quiet⟩
    · exact ⟨kept, Sparing.of_gone gone⟩
  | set p i c =>
    have taken : (m.fs.icache i).lock ≠ none := by rw [proper]; exact Option.some_ne_none p
    have before := sane.alike_of_locked taken
    have change := change_alike c (m.fs.icache i).din
    have alike : Alike (m.fs.dinodes (m.fs.icache i).inum) (c.apply (m.fs.icache i).din) :=
      ⟨change.type.trans before.type, change.size.trans before.size,
        change.addrs.trans before.addrs⟩
    exact Spec.modify ⟨sane.putDin taken alike, Sparing.of_quiet ⟨rfl, rfl, rfl, rfl, rfl, rfl, rfl,
      rfl, rfl⟩⟩
  | iupdate p i =>
    have taken : (m.fs.icache i).lock ≠ none := by rw [proper]; exact Option.some_ne_none p
    have use := (sane.slots i).locked taken
    have alike := sane.alike_of_locked taken
    change Spec allowed (Fs.iupdate i) m.fs _
    rw [iupdate_eq]
    exact Spec.modify ⟨sane.commit use.1 use.2 alike, Sparing.of_same alike.owner⟩
  | readi p i off n =>
    have taken : (m.fs.icache i).lock ≠ none := by rw [proper.1]; exact Option.some_ne_none p
    have use := (sane.slots i).locked taken
    refine Spec.bind (readi_spec sane use.1 use.2 proper.2 off n) ?_
    rintro _ s' ⟨rfl, _⟩
    exact Spec.pure ⟨sane, Sparing.of_quiet (Quiet.refl _)⟩
  | writei p i src off =>
    have taken : (m.fs.icache i).lock ≠ none := by rw [proper.1]; exact Option.some_ne_none p
    have use := (sane.slots i).locked taken
    refine Spec.bind (writei_spec (lenient _ (by decide)) sane use.1 use.2 proper.2 src off) ?_
    rintro _ s' ⟨kept, ⟨rfl, _⟩ | ⟨_, _, _, stored⟩⟩
    · exact Spec.pure ⟨kept, Sparing.of_quiet (Quiet.refl _)⟩
    · refine Spec.pure ⟨kept, Sparing.of_kept sane.owned kept.owned fun key some => ?_⟩
      exact stored.kept sane use.1 use.2 proper.2 key some

theorem step_sane {next : Machine} {event : Event} (sane : Sane m.dirty m.fs)
    (taken : step m event = .ok next) : Sane next.dirty next.fs ∧ Sparing m.fs next.fs := by
  unfold step at taken
  split at taken
  · rename_i proper
    obtain ⟨⟨_, s'⟩, performed, rfl⟩ := Outcome.map_eq_ok.mp taken
    have all : ∀ message, message ≠ "freeing free block" → Stops.all message := fun _ _ => trivial
    exact (perform_spec all trivial sane event proper).ok performed
  · cases taken

theorem run_sane {last : Machine} {events : List Event} (sane : Sane m.dirty m.fs)
    (reached : runOps m events = some last) : Sane last.dirty last.fs := by
  have all : Runs.Meets (fun m event => (step m event).toOption) (fun _ _ => True) m events :=
    Runs.Meets.of_forall (fun _ _ _ => trivial) m
  refine @Runs.run_preserves _ _ _ _ (fun m => Sane m.dirty m.fs) ?_ _ _ _ all reached sane
  grind [step_sane, Outcome.toOption_eq_some]

/-- No operation frees a block that is free. -/
theorem step_not_freeing (sane : Sane m.dirty m.fs) (event : Event) :
    step m event ≠ .panic "freeing free block" := by
  intro panicked
  unfold step at panicked
  split at panicked
  · rename_i proper
    have spec := @perform_spec ⟨(· ≠ "freeing free block"), True⟩ m (fun _ other => other)
      trivial sane event proper
    cases run : event.perform m.fs with
    | ok result =>
      rw [run] at panicked
      cases panicked
    | panic message =>
      rw [run] at panicked
      cases panicked
      exact spec.panicked run rfl
    | blocked =>
      rw [run] at panicked
      cases panicked
  · cases panicked

end Step

/-- The bitmap is exact: a block is marked if it belongs to the metadata or occurs once
among the addresses of the inodes in use, and then only once; an inode has the blocks
that its size needs, and an indirect block if one of them is beyond the direct ones. -/
structure BlocksExact (s : State) : Prop where
  bitmap : ∀ b, b < FSSIZE →
    (s.bitmap b = true ↔ b < nmeta ∨ ∃! key, b ≠ 0 ∧ owner s.blocks s.dinodes key = b)
  once : ∀ key other, owner s.blocks s.dinodes key ≠ 0 →
    owner s.blocks s.dinodes key = owner s.blocks s.dinodes other → key = other
  data : ∀ j, (s.dinodes j).type ≠ .free → ∀ n, n < MAXFILE →
    (blockAddr s.blocks (s.dinodes j) n ≠ 0 ↔ n * BSIZE < (s.dinodes j).size)
  indirect : ∀ j, (s.dinodes j).type ≠ .free → ((s.dinodes j).addrs NDIRECT ≠ 0 ↔
    ∃ n, NDIRECT ≤ n ∧ n < MAXFILE ∧ blockAddr s.blocks (s.dinodes j) n ≠ 0)

theorem Sane.blocksExact (sane : Sane dirty s) : BlocksExact s := by
  refine ⟨fun b below => ?_, sane.owned.once, fun j typed n inside => ?_, fun j typed => ?_⟩
  · rw [sane.owned.usedIff b below]
    refine or_congr_right ⟨?_, ?_⟩
    · rintro ⟨key, same, nonzero⟩
      refine ⟨key, ⟨nonzero, same⟩, ?_⟩
      rintro other ⟨_, same'⟩
      exact sane.owned.once other key (by rwa [same']) (by rw [same', same])
    · rintro ⟨key, ⟨nonzero, same⟩, _⟩
      exact ⟨key, same, nonzero⟩
  · rw [(sane.sized j typed).shaped.data n inside, lt_blocksOf]
  · have shaped := (sane.sized j typed).shaped
    rw [shaped.indirect]
    constructor
    · intro more
      have bound := shaped.bound
      exact ⟨NDIRECT, Nat.le_refl _, by omega, (shaped.data _ (by omega)).mpr more⟩
    · rintro ⟨n, lower, inside, some⟩
      have below := (shaped.data n inside).mp some
      omega

/-- A free block that `balloc` finds is nobody's. -/
theorem Sane.balloc_unused {s' : State} (sane : Sane dirty s) {b : Nat}
    (taken : balloc s = .ok (b, s')) : nmeta ≤ b ∧ ∀ key, owner s.blocks s.dinodes key ≠ b := by
  have full : Stops.all "balloc: out of blocks" := trivial
  obtain ⟨inside, free, _⟩ := (balloc_spec full).ok taken
  have lower := sane.owned.lower_of_free inside free
  refine ⟨lower, fun key same => ?_⟩
  have zero := sane.owned.unowned inside free key same
  have positive : 0 < nmeta := by decide
  omega

section Runs

variable {im : Mkfs.Image} {files : List Mkfs.Source} {devsw : Int → Option Device}
  {events : List Event} {m : Machine}

/-- From an image of mkfs the free bitmap stays exact through any run of inode
operations. No operation frees a free block, and a block that balloc hands out, in this
state or within the next operation, was not in use. -/
theorem block_ownership (made : Mkfs.mkfs files = some im) (few : files.length < NINODES - 1)
    (room : im.freeblock ≤ FSSIZE) (reached : runOps (boot im devsw) events = some m) :
    BlocksExact m.fs ∧ (∀ event, step m event ≠ .panic "freeing free block") ∧
    (∀ b s', balloc m.fs = .ok (b, s') →
      nmeta ≤ b ∧ ∀ key, owner m.fs.blocks m.fs.dinodes key ≠ b) ∧
    (∀ event next, step m event = .ok next → ∀ key, owner m.fs.blocks m.fs.dinodes key = 0 →
      owner next.fs.blocks next.fs.dinodes key ≠ 0 →
      m.fs.bitmap (owner next.fs.blocks next.fs.dinodes key) = false ∧
        ∀ other, owner m.fs.blocks m.fs.dinodes other ≠ owner next.fs.blocks next.fs.dinodes
          key) := by
  have sane := run_sane ((Mkfs.mkfs_made made few room).sane devsw) reached
  refine ⟨sane.blocksExact, step_not_freeing sane, fun b s' taken => sane.balloc_unused taken, ?_⟩
  intro event next taken key none some
  obtain ⟨after, sparing⟩ := step_sane sane taken
  have free := sparing key none some
  refine ⟨free, fun other same => some ?_⟩
  exact sane.owned.unowned (after.owned.inRange key some).2 free other same

/-- Process 0 makes a file, writes to it, unlinks it and drops it. -/
def writeAndDrop : List Event :=
  [.ialloc 0 .file, .ilock 0 0, .set 0 0 (.create 0 0), .iupdate 0 0, .writei 0 0 [104, 105] 0,
    .set 0 0 .unlink, .iupdate 0 0, .iunlock 0 0, .iput 0 0]

theorem block_ownership_writeAndDrop : ∃ im m, Mkfs.mkfs [] = some im ∧
    runOps (boot im fun _ => none) writeAndDrop = some m ∧ BlocksExact m.fs := by
  obtain ⟨im, made, room, m, ran, -⟩ : Mkfs.Yields [] fun im =>
      ∃ m ∈ runOps (boot im fun _ => none) writeAndDrop, True := by decide +kernel
  exact ⟨im, m, made, ran, (block_ownership made (by decide) room ran).1⟩

/-- The inode cache holds an inode in at most one slot, and an unlocked valid slot holds
what is on the disk. -/
theorem inode_cache_coherent (made : Mkfs.mkfs files = some im) (few : files.length < NINODES - 1)
    (room : im.freeblock ≤ FSSIZE) (reached : runOps (boot im devsw) events = some m) :
    (∀ i j, 0 < (m.fs.icache i).ref → 0 < (m.fs.icache j).ref →
      (m.fs.icache i).dev = (m.fs.icache j).dev → (m.fs.icache i).inum = (m.fs.icache j).inum →
        i = j) ∧
    (∀ i, 0 < (m.fs.icache i).ref → (m.fs.icache i).valid = true → (m.fs.icache i).lock = none →
      (m.fs.icache i).din = m.fs.dinodes (m.fs.icache i).inum) := by
  have sane := run_sane ((Mkfs.mkfs_made made few room).sane devsw) reached
  constructor
  · intro i j used used' _ same
    exact sane.unique used used' same
  · intro i used valid unlocked
    exact (sane.slots i).coherent used valid (sane.clean unlocked)

/-- Process 0 makes a file and changes its mode; process 1 refers to it too. -/
def chmodShared : List Event :=
  [.ialloc 0 .file, .ilock 0 0, .set 0 0 (.create 0 0), .iupdate 0 0, .iget 2,
    .set 0 0 (.chmod 0o600), .iupdate 0 0, .iunlock 0 0]

theorem inode_cache_coherent_chmodShared : ∃ im m, Mkfs.mkfs [] = some im ∧
    runOps (boot im fun _ => none) chmodShared = some m ∧ (m.fs.icache 0).ref = 2 ∧
    (m.fs.icache 0).din = m.fs.dinodes (m.fs.icache 0).inum := by
  obtain ⟨im, made, room, m, ran, shared, valid, unlocked⟩ : Mkfs.Yields [] fun im =>
      ∃ m ∈ runOps (boot im fun _ => none) chmodShared, (m.fs.icache 0).ref = 2 ∧
        (m.fs.icache 0).valid = true ∧ (m.fs.icache 0).lock = none := by decide +kernel
  have used : 0 < (m.fs.icache 0).ref := by omega
  exact ⟨im, m, made, ran, shared, (inode_cache_coherent made (by decide) room ran).2 0
    used valid unlocked⟩

/-- System calls leave a state of the machine, from which operations can go on: the bitmap is
exact after both, and neither a call nor an operation then frees a free block. -/
theorem calls_then_operations {calls : List (Fin NPROC × Call)}
    (made : Mkfs.Made im files) (called : runSystem im devsw calls = some s)
    (reached : runOps ⟨s, clean⟩ events = some m) :
    (BlocksExact s ∧ ∀ p call, callStep s (p, call) ≠ .panic "freeing free block") ∧
    BlocksExact m.fs ∧ ∀ event, step m event ≠ .panic "freeing free block" := by
  have base := run_system_base made called
  have sane : Sane clean s := (base.mid 0).sane
  have after := run_sane sane reached
  refine ⟨⟨sane.blocksExact, fun p call => ?_⟩, after.blocksExact, step_not_freeing after⟩
  have roomy : s.outside.Roomy (Stops.except ["freeing free block"]) call.slots :=
    Or.inr (show "iget: no inodes" ∉ ["freeing free block"] by decide)
  exact callStep_never base (by decide) roomy List.mem_cons_self

end Runs

end Xv6.Fs
