import Xv6.Fs.Itrunc

/- What holds of the inode cache and the disk between any two operations of fs.c, and
that each operation keeps it. A slot is dirty while its holder has changed a field and
not yet called iupdate. -/
namespace Xv6.Fs

open Exec hiding panic
open Ownership

/-- Two inodes with the same type and the same content. -/
structure Alike (din other : Dinode) : Prop where
  type : other.type = din.type
  size : other.size = din.size
  addrs : other.addrs = din.addrs

/-- What may stand in slot `i` next to the other slots and the disk of `s`. -/
structure SlotOk (s : State) (dirty : Bool) (i : Fin NINODE) (ip : Inode) : Prop where
  device : 0 < ip.ref → ip.dev = ROOTDEV
  alone : 0 < ip.ref → ∀ j, j ≠ i → 0 < (s.icache j).ref → (s.icache j).inum ≠ ip.inum
  coherent : 0 < ip.ref → ip.valid = true → dirty = false → ip.din = s.dinodes ip.inum
  ahead : dirty = true → Alike (s.dinodes ip.inum) ip.din
  typed : 0 < ip.ref → ip.valid = true → (s.dinodes ip.inum).type ≠ .free
  held : dirty = true → ip.lock ≠ none
  locked : ip.lock ≠ none → 0 < ip.ref ∧ ip.valid = true

/-- The blocks of an inode in use are those that its size needs. -/
structure Sized (blocks : Nat → Block) (din : Dinode) : Prop where
  bounded : din.size ≤ MAXFILE * BSIZE
  shaped : Shaped blocks din (blocksOf din.size)

theorem Sized.byteAt {blocks blocks' : Nat → Block} {din : Dinode} (sized : Sized blocks din)
    (intact : Intact blocks blocks' din) {k : Nat} (below : k / BSIZE < blocksOf din.size) :
    byteAt blocks' din k = byteAt blocks din k := by
  have bound := sized.shaped.bound
  exact intact.byteAt (by omega) ((sized.shaped.data _ (by omega)).mpr below)

structure Sane (dirty : Fin NINODE → Bool) (s : State) : Prop where
  slots : ∀ i, SlotOk s (dirty i) i (s.icache i)
  owned : Owned s.blocks s.dinodes s.bitmap
  sized : ∀ j, (s.dinodes j).type ≠ .free → Sized s.blocks (s.dinodes j)
  numbered : ∀ j, (s.dinodes j).type ≠ .free → 0 < j ∧ j < NINODES

theorem Sane.relog {dirty : Fin NINODE → Bool} {s : State} (sane : Sane dirty s)
    (logged : List Nat) :
    Sane dirty (s.relog logged) := by
  refine ⟨fun i => ?_, sane.owned, sane.sized, sane.numbered⟩
  have slot := sane.slots i
  exact ⟨slot.device, slot.alone, slot.coherent, slot.ahead, slot.typed, slot.held, slot.locked⟩

/-- No slot is dirty. -/
abbrev clean : Fin NINODE → Bool := fun _ => false

/-- Nothing changed but the inode cache. -/
structure Quiet (s s' : State) : Prop where
  dinodes : s'.dinodes = s.dinodes
  bitmap : s'.bitmap = s.bitmap
  blocks : s'.blocks = s.blocks
  namecache : s'.namecache = s.namecache
  ftable : s'.ftable = s.ftable
  procs : s'.procs = s.procs
  devsw : s'.devsw = s.devsw
  pipes : s'.pipes = s.pipes
  logged : s'.logged = s.logged

/-- The state with another inode in slot `i`. -/
def State.setSlot (s : State) (i : Fin NINODE) (ip : Inode) : State :=
  { s with icache := Function.update s.icache i ip }

theorem setInode_eq (i : Fin NINODE) (change : Inode → Inode) :
    setInode i change = Exec.modify fun s => s.setSlot i (change (s.icache i)) := rfl

theorem setSlot_self (s : State) (i : Fin NINODE) (ip : Inode) : (s.setSlot i ip).icache i = ip :=
  Function.update_self _ _ _

theorem setSlot_of_ne (s : State) {i j : Fin NINODE} (ip : Inode) (apart : j ≠ i) :
    (s.setSlot i ip).icache j = s.icache j :=
  Function.update_of_ne apart _ _

theorem setSlot_setSlot (s : State) (i : Fin NINODE) (ip ip' : Inode) :
    (s.setSlot i ip).setSlot i ip' = s.setSlot i ip' := by
  simp only [State.setSlot, Function.update_idem]

theorem setSlot_same (s : State) (i : Fin NINODE) : s.setSlot i (s.icache i) = s := by
  simp only [State.setSlot, Function.update_eq_self]

theorem Quiet.setSlot (s : State) (i : Fin NINODE) (ip : Inode) : Quiet s (s.setSlot i ip) :=
  ⟨rfl, rfl, rfl, rfl, rfl, rfl, rfl, rfl, rfl⟩

theorem Quiet.refl (s : State) : Quiet s s := ⟨rfl, rfl, rfl, rfl, rfl, rfl, rfl, rfl, rfl⟩

section Invariant

variable {allowed : Stops} {dirty : Fin NINODE → Bool} {s : State} {i : Fin NINODE}

/-- A slot that is not in use may hold anything. -/
theorem slotOk_unused {ip : Inode} (unused : ip.ref = 0) (unlocked : ip.lock = none) :
    SlotOk s false i ip := by
  have absurd : ∀ {goal : Prop}, 0 < ip.ref → goal := by
    intro goal used
    omega
  exact ⟨absurd, absurd, absurd, fun taken => Bool.noConfusion taken, absurd,
    fun taken => Bool.noConfusion taken, fun taken => (taken unlocked).elim⟩

/-- At most one slot is in use for an inode. -/
theorem Sane.unique (sane : Sane dirty s) {j : Fin NINODE} (used : 0 < (s.icache i).ref)
    (used' : 0 < (s.icache j).ref) (same : (s.icache i).inum = (s.icache j).inum) : i = j := by
  by_contra apart
  exact (sane.slots j).alone used' i apart used same

/-- Putting a fitting inode in a slot. -/
theorem Sane.setSlot (sane : Sane dirty s) {d : Bool} {ip : Inode} (fits : SlotOk s d i ip) :
    Sane (Function.update dirty i d) (s.setSlot i ip) := by
  refine ⟨fun j => ?_, sane.owned, sane.sized, sane.numbered⟩
  by_cases here : j = i
  · subst here
    rw [Function.update_self, setSlot_self]
    refine ⟨fits.device, fun used k apart => ?_, fits.coherent, fits.ahead, fits.typed, fits.held,
      fits.locked⟩
    rw [setSlot_of_ne s ip apart]
    exact fits.alone used k apart
  · rw [Function.update_of_ne here, setSlot_of_ne s ip here]
    have other := sane.slots j
    refine ⟨other.device, fun used k apart => ?_, other.coherent, other.ahead, other.typed,
      other.held, other.locked⟩
    grind [setSlot_self, SlotOk.alone, setSlot_of_ne]

/-- The same when the slot stays as dirty as it was. -/
theorem Sane.keepSlot (sane : Sane dirty s) {ip : Inode} (fits : SlotOk s (dirty i) i ip) :
    Sane dirty (s.setSlot i ip) := by
  have changed := sane.setSlot fits
  rwa [Function.update_eq_self] at changed

theorem Sane.clean (sane : Sane dirty s) (unlocked : (s.icache i).lock = none) :
    dirty i = false := by
  cases known : dirty i with
  | false => rfl
  | true => exact ((sane.slots i).held known unlocked).elim

/-- The table with the slot's own copy is the table of the disk. -/
theorem Sane.tableOf (sane : Sane dirty s) (used : 0 < (s.icache i).ref)
    (valid : (s.icache i).valid = true) (clean : dirty i = false) : tableOf s i = s.dinodes := by
  rw [Fs.tableOf, (sane.slots i).coherent used valid clean, Function.update_eq_self]

theorem Sane.flight (sane : Sane dirty s) (used : 0 < (s.icache i).ref)
    (valid : (s.icache i).valid = true) (clean : dirty i = false) :
    Flight s i (blocksOf (s.icache i).din.size) := by
  have typed := (sane.slots i).typed used valid
  have coherent := (sane.slots i).coherent used valid clean
  refine ⟨?_, ?_, ?_⟩
  · rw [sane.tableOf used valid clean]
    exact sane.owned
  · rw [coherent]
    exact (sane.sized _ typed).shaped
  · rwa [coherent]

end Invariant

section Slots

variable {allowed : Stops} {dirty : Fin NINODE → Bool} {s : State} {p : Fin NPROC}
  {i : Fin NINODE}

/-- Slot `i` got one more reference, to inode `X`. -/
structure Got (s s' : State) (i : Fin NINODE) (X : Nat) : Prop where
  quiet : Quiet s s'
  others : ∀ j, j ≠ i → s'.icache j = s.icache j
  inum : (s'.icache i).inum = X
  ref : (s'.icache i).ref = (s.icache i).ref + 1
  lock : (s'.icache i).lock = (s.icache i).lock
  again : 0 < (s.icache i).ref → s'.icache i = { s.icache i with ref := (s.icache i).ref + 1 }
  fresh : (s.icache i).ref = 0 → (s'.icache i).valid = false

/-- `iget` finds a slot unless all of them are in use. -/
theorem iget_spec (full : (∀ j, 0 < (s.icache j).ref) → allowed "iget: no inodes")
    (sane : Sane dirty s) (X : Nat) :
    Spec allowed (iget ROOTDEV X) s fun i s' => Sane dirty s' ∧ Got s s' i X := by
  refine Spec.bind_get ?_
  split
  · rename_i i found
    have hit := List.find?_some found
    simp only [decide_eq_true_eq] at hit
    obtain ⟨used, _, inum⟩ := hit
    rw [setInode_eq]
    refine Spec.bind_modify (Spec.pure ⟨sane.keepSlot ?_, ?_⟩)
    · have slot := sane.slots i
      exact ⟨fun _ => slot.device used, fun _ => slot.alone used, fun _ => slot.coherent used,
        slot.ahead, fun _ => slot.typed used, slot.held, fun taken =>
        ⟨by simp, (slot.locked taken).2⟩⟩
    · refine ⟨Quiet.setSlot _ _ _, fun j apart => setSlot_of_ne s _ apart, ?_, ?_, ?_, ?_, ?_⟩
      · rw [setSlot_self]
        exact inum
      · rw [setSlot_self]
      · rw [setSlot_self]
      · intro _
        rw [setSlot_self]
      · omega
  · rename_i missed
    have absent : ∀ j, 0 < (s.icache j).ref → (s.icache j).inum ≠ X := by
      intro j used same
      have miss := List.find?_eq_none.mp missed j (List.mem_finRange j)
      simp only [decide_eq_true_eq] at miss
      exact miss ⟨used, (sane.slots j).device used, same⟩
    split
    · rename_i i found
      have none := List.find?_some found
      simp only [decide_eq_true_eq] at none
      rw [setInode_eq]
      have slot := sane.slots i
      have unlocked : (s.icache i).lock = Option.none := by
        by_contra taken
        have used := (slot.locked taken).1
        omega
      have clean := sane.clean unlocked
      refine Spec.bind_modify (Spec.pure ⟨sane.keepSlot ?_, ?_⟩)
      · refine ⟨fun _ => rfl, fun _ j _ used => absent j used, ?_, ?_, ?_, ?_, ?_⟩
        · intro _ valid
          cases valid
        · grind
        · intro _ valid
          cases valid
        · exact slot.held
        · exact fun taken => (taken unlocked).elim
      · refine ⟨Quiet.setSlot _ _ _, fun j apart => setSlot_of_ne s _ apart, ?_, ?_, ?_, ?_, ?_⟩
        · rw [setSlot_self]
        · rw [setSlot_self, none]
        · rw [setSlot_self]
        · omega
        · intro _
          rw [setSlot_self]
    · rename_i taken
      refine Spec.panic (full fun j => ?_)
      have used := List.find?_eq_none.mp taken j (List.mem_finRange j)
      simp only [decide_eq_true_eq] at used
      omega

theorem idup_spec (sane : Sane dirty s) (used : 0 < (s.icache i).ref) :
    Spec allowed (idup i) s fun j s' => j = i ∧ Sane dirty s' ∧
      s' = s.setSlot i { s.icache i with ref := (s.icache i).ref + 1 } := by
  refine Spec.bind_modify (Spec.pure ⟨rfl, sane.keepSlot ?_, rfl⟩)
  have slot := sane.slots i
  exact ⟨fun _ => slot.device used, fun _ => slot.alone used, fun _ => slot.coherent used,
    slot.ahead, fun _ => slot.typed used, slot.held, fun taken => ⟨by simp, (slot.locked taken).2⟩⟩

/-- The state after `p` locked the inode in slot `i`. -/
def State.lockSlot (s : State) (p : Fin NPROC) (i : Fin NINODE) : State :=
  s.setSlot i { s.icache i with
    lock := some p
    valid := true
    din := s.dinodes (s.icache i).inum }

theorem acquiresleep_spec (waits : (s.icache i).lock ≠ none → allowed.waits) :
    Spec allowed (acquiresleep p i) s fun _ s' => (s.icache i).lock = none ∧
      s' = s.setSlot i { s.icache i with lock := some p } := by
  refine Spec.bind_get ?_
  split
  · rename_i unlocked
    exact Spec.modify ⟨unlocked, rfl⟩
  · rename_i taken
    exact Spec.wait (waits taken)

theorem ilock_spec (sane : Sane dirty s) (unused : (s.icache i).ref = 0 → allowed "ilock")
    (waits : (s.icache i).lock ≠ none → allowed.waits)
    (typed : (s.dinodes (s.icache i).inum).type = .free → allowed "ilock: no type") :
    Spec allowed (ilock p i) s fun _ s' => Sane dirty s' ∧ s' = s.lockSlot p i ∧
      0 < (s.icache i).ref ∧ (s.icache i).lock = none ∧
      (s.dinodes (s.icache i).inum).type ≠ .free := by
  have slot := sane.slots i
  refine Spec.bind_get ?_
  split
  · exact Spec.panic (unused (by omega))
  have used : 0 < (s.icache i).ref := by omega
  refine Spec.bind (acquiresleep_spec waits) ?_
  rintro _ _ ⟨unlocked, rfl⟩
  have clean := sane.clean unlocked
  have locks : (s.dinodes (s.icache i).inum).type ≠ .free → Sane dirty (s.lockSlot p i) := by
    intro allocated
    refine sane.keepSlot ⟨fun _ => slot.device used, fun _ => slot.alone used, fun _ _ _ => rfl,
      fun taken => ?_, fun _ _ => allocated, fun taken => ?_, fun _ => ⟨used, rfl⟩⟩
    · rw [clean] at taken
      cases taken
    · rw [clean] at taken
      cases taken
  refine Spec.when (fun invalid => ?_) (fun valid => ?_)
  · rw [setInode_eq]
    refine Spec.bind_modify ?_
    refine Spec.when (fun free => Spec.panic (typed free)) (fun allocated => ?_)
    have same : ((s.setSlot i { s.icache i with lock := some p }).setSlot i
        { (s.setSlot i { s.icache i with lock := some p }).icache i with
          din := s.dinodes ((s.setSlot i { s.icache i with lock := some p }).icache i).inum
          valid := true }) = s.lockSlot p i := by
      rw [setSlot_setSlot, setSlot_self]
      rfl
    grind
  · rw [Bool.not_eq_false] at valid
    have allocated := slot.typed used valid
    have coherent := slot.coherent used valid clean
    have same : s.setSlot i { s.icache i with lock := some p } = s.lockSlot p i := by
      rw [State.lockSlot, ← coherent, ← valid]
    grind

theorem iunlock_spec (sane : Sane dirty s) (clean : dirty i = false)
    (foreign : (s.icache i).lock ≠ some p → allowed "iunlock") :
    Spec allowed (iunlock p i) s fun _ s' => Sane dirty s' ∧
      s' = s.setSlot i { s.icache i with lock := none } := by
  refine Spec.bind_get ?_
  have slot := sane.slots i
  split
  · rename_i other
    refine Spec.panic (foreign fun own => ?_)
    have used := (slot.locked (by rw [own]; exact Option.some_ne_none p)).1
    rcases other with other | none
    · exact other own
    · omega
  · refine Spec.modify ⟨sane.keepSlot ?_, rfl⟩
    refine ⟨slot.device, slot.alone, slot.coherent, slot.ahead, slot.typed, fun taken => ?_, ?_⟩
    · rw [clean] at taken
      cases taken
    · exact fun taken => (taken rfl).elim

/-- The reference to slot `i` was dropped; the inode stays. -/
structure Dropped (s s' : State) (i : Fin NINODE) : Prop where
  quiet : Quiet s s'
  others : ∀ j, j ≠ i → s'.icache j = s.icache j
  slot : s'.icache i = { s.icache i with ref := (s.icache i).ref - 1 }
  kept : ¬ ((s.icache i).valid = true ∧ (s.icache i).din.nlink = 0 ∧ (s.icache i).ref = 1)

/-- The last reference to slot `i` was dropped, and the inode freed with it. -/
structure Gone (s s' : State) (i : Fin NINODE) : Prop where
  valid : (s.icache i).valid = true
  nlink : (s.icache i).din.nlink = 0
  last : (s.icache i).ref = 1
  dinodes : s'.dinodes = Function.update s.dinodes (s.icache i).inum (s'.icache i).din
  din : (s'.icache i).din = (s.icache i).din.freed (s'.icache i).din.addrs
  others : ∀ j, j ≠ i → s'.icache j = s.icache j
  slot : s'.icache i = { s.icache i with din := (s'.icache i).din, valid := false, ref := 0 }
  blocks : s'.blocks = s.blocks
  namecache : s'.namecache = s.namecache
  ftable : s'.ftable = s.ftable
  procs : s'.procs = s.procs
  devsw : s'.devsw = s.devsw
  pipes : s'.pipes = s.pipes

theorem Gone.type {s s' : State} {i : Fin NINODE} (gone : Gone s s' i) :
    (s'.icache i).din.type = .free := by
  rw [gone.din]
  rfl

/-- Freeing the inode of a slot that nobody else refers to. -/
theorem Freed.sane (sane : Sane dirty s) {s' : State} (freed : Freed s s' i)
    (used : 0 < (s.icache i).ref) (unlocked : (s.icache i).lock = none) :
    Sane dirty (s'.setSlot i { s'.icache i with ref := 0 }) := by
  have clean := sane.clean unlocked
  have kept : ∀ j, (s'.dinodes j).type ≠ .free → j ≠ (s.icache i).inum := by
    intro j allocated same
    rw [same, freed.dinodes, Function.update_self] at allocated
    exact allocated freed.type
  have same : ∀ j, j ≠ (s.icache i).inum → s'.dinodes j = s.dinodes j := by
    intro j apart
    rw [freed.dinodes, Function.update_of_ne apart]
  refine ⟨fun j => ?_, freed.owned, fun j allocated => ?_, fun j allocated => ?_⟩
  · by_cases here : j = i
    · subst here
      rw [setSlot_self, clean]
      refine slotOk_unused rfl ?_
      rw [freed.slot]
      exact unlocked
    · rw [setSlot_of_ne _ _ here, freed.others j here]
      have slot := sane.slots j
      have apart : 0 < (s.icache j).ref → (s.icache j).inum ≠ (s.icache i).inum :=
        fun used' => (sane.slots i).alone used j here used'
      have apart' : dirty j = true → (s.icache j).inum ≠ (s.icache i).inum :=
        fun taken => apart (slot.locked (slot.held taken)).1
      refine ⟨slot.device, fun used' k different => ?_, fun used' valid clean' => ?_,
        fun taken => ?_, fun used' valid => ?_, slot.held, slot.locked⟩
      · by_cases there : k = i
        · grind [setSlot_self]
        · rw [setSlot_of_ne _ _ there, freed.others k there]
          exact slot.alone used' k different
      · exact (slot.coherent used' valid clean').trans (same _ (apart used')).symm
      · change Alike (s'.dinodes _) _
        rw [same _ (apart' taken)]
        exact slot.ahead taken
      · change (s'.dinodes _).type ≠ _
        rw [same _ (apart used')]
        exact slot.typed used' valid
  · change (s'.dinodes j).type ≠ _ at allocated
    change Sized s'.blocks (s'.dinodes j)
    have stays := same j (kept j allocated)
    rw [stays] at allocated ⊢
    rw [freed.blocks]
    exact sane.sized j allocated
  · change (s'.dinodes j).type ≠ _ at allocated
    rw [same j (kept j allocated)] at allocated
    exact sane.numbered j allocated

/-- Freeing happens under the lock that `iput` takes and releases. -/
theorem Freed.unlock {s' : State}
    (freed : Freed (s.setSlot i { s.icache i with lock := some p }) s' i)
    (unlocked : (s.icache i).lock = none) :
    Freed s (s'.setSlot i { s'.icache i with lock := none }) i := by
  have slot := freed.slot
  rw [setSlot_self] at slot
  refine ⟨?_, ?_, fun j apart => ?_, ?_, freed.blocks, freed.namecache, freed.ftable,
    freed.procs, freed.devsw, freed.pipes, freed.owned⟩
  · have dinodes := freed.dinodes
    rw [setSlot_self] at dinodes
    rw [setSlot_self]
    exact dinodes
  · have din := freed.din
    grind [setSlot_self]
  · rw [setSlot_of_ne _ _ apart, freed.others j apart, setSlot_of_ne _ _ apart]
  · rw [setSlot_self, slot, ← unlocked]

/-- `iput` drops a reference, and frees an inode without links when it was the last. -/
theorem iput_spec (sane : Sane dirty s) (used : 0 < (s.icache i).ref)
    (waits : (s.icache i).lock ≠ none → allowed.waits) :
    Spec allowed (iput p i) s fun _ s' => Sane dirty s' ∧ (s.icache i).lock = none ∧
      (Dropped s s' i ∨ Gone s s' i) := by
  have slot := sane.slots i
  refine Spec.bind (acquiresleep_spec waits) ?_
  rintro _ _ ⟨unlocked, rfl⟩
  have clean := sane.clean unlocked
  refine Spec.bind_get ?_
  rw [setSlot_self]
  by_cases last : (s.icache i).valid = true ∧ (s.icache i).din.nlink = 0 ∧ (s.icache i).ref = 1
  · have owned : Owned s.blocks (tableOf s i) s.bitmap := (sane.flight used last.1 clean).owned
    have table : tableOf (s.setSlot i { s.icache i with lock := some p }) i = tableOf s i := by
      simp only [tableOf, setSlot_self]
      rfl
    refine Spec.through (fun _ s' => Freed (s.setSlot i { s.icache i with lock := some p }) s' i)
      ?_ ?_
    · refine Spec.when (fun _ => ifree_spec ?_ ?_) (fun other => (other last).elim)
      · rw [table]
        exact owned
      · rw [setSlot_self]
        exact (sane.flight used last.1 clean).allocated
    · intro _ s' freed
      have freed := freed.unlock unlocked
      unfold releasesleep
      rw [setInode_eq]
      refine Spec.bind_modify ?_
      rw [setInode_eq]
      refine Spec.modify ?_
      have ref : (({ s'.icache i with lock := none } : Inode)).ref - 1 = 0 := by
        have same := freed.slot
        rw [setSlot_self] at same
        rw [same, last.2.2]
      rw [setSlot_self, ref]
      have kept := freed.sane sane used unlocked
      rw [setSlot_self] at kept
      refine ⟨kept, unlocked, Or.inr ⟨last.1, last.2.1, last.2.2, ?_, ?_, fun j apart => ?_, ?_,
        freed.blocks, freed.namecache, freed.ftable, freed.procs, freed.devsw, freed.pipes⟩⟩
      · have dinodes := freed.dinodes
        rw [setSlot_self] at dinodes ⊢
        exact dinodes
      · have din := freed.din
        rw [setSlot_self] at din ⊢
        exact din
      · rw [setSlot_of_ne _ _ apart, freed.others j apart]
      · have same := freed.slot
        rw [setSlot_self] at same ⊢
        rw [same]
  · refine Spec.through (fun _ s' => s' = s.setSlot i { s.icache i with lock := some p }) ?_ ?_
    · exact Spec.when (fun taken => (last taken).elim) (fun _ => rfl)
    · rintro _ _ rfl
      unfold releasesleep
      rw [setInode_eq]
      refine Spec.bind_modify ?_
      have final : ((s.setSlot i { s.icache i with lock := some p }).setSlot i
          { (s.setSlot i { s.icache i with lock := some p }).icache i with lock := none }) = s := by
        rw [setSlot_setSlot, setSlot_self]
        rw [← unlocked]
        exact setSlot_same s i
      rw [final]
      refine ⟨sane.keepSlot ?_, unlocked, Or.inl ⟨Quiet.setSlot _ _ _, fun j apart =>
        setSlot_of_ne _ _ apart, setSlot_self _ _ _, last⟩⟩
      exact ⟨fun _ => slot.device used, fun _ => slot.alone used, fun _ => slot.coherent used,
        slot.ahead, fun _ => slot.typed used, slot.held, fun taken => (taken unlocked).elim⟩

end Slots

end Xv6.Fs
